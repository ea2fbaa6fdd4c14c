import Legroom.Transforms.TagRestore

/-!
# What a span holds

A span is a tag that closes itself, a tag with all that stands before its closing tag,
or, where only the markers are replaced, one tag.  The tag that it begins with is no
HTML tag.  Its ends are between tags of the text, and between characters.
-/

namespace Legroom.Transforms

open Bedrock (asciiLower)
open Utf8

/-- Both sides are text. -/
def IsCharBoundary (text : Bytes) (position : ℕ) : Prop :=
  Valid (text.take position) ∧ Valid (text.drop position)

/-- A custom tag that closes itself. -/
def SelfClosingTag (text : Bytes) (span : Span) : Prop :=
  ∃ name length, parseTagAt (text.drop span.start) = .open name length true ∧
    isKnownHtmlTag name = false ∧ span.stop = span.start + length

/-- A custom tag up to a closing tag of its name. -/
def TagBlock (text : Bytes) (span : Span) : Prop :=
  ∃ name length closeName closeLength closeStart,
    parseTagAt (text.drop span.start) = .open name length false ∧
    isKnownHtmlTag name = false ∧ span.start + length ≤ closeStart ∧
    parseTagAt (text.drop closeStart) = .close closeName closeLength ∧
    closeName.map asciiLower = name.map asciiLower ∧ span.stop = closeStart + closeLength

/-- A custom tag. -/
def MarkerTag (text : Bytes) (span : Span) : Prop :=
  ∃ name length, (parseTagAt (text.drop span.start)).tag? = some (name, length) ∧
    isKnownHtmlTag name = false ∧ span.stop = span.start + length

def SpanTags (text : Bytes) (compressTaggedContent : Bool) (span : Span) : Prop :=
  if compressTaggedContent then MarkerTag text span
  else SelfClosingTag text span ∨ TagBlock text span

theorem SpanTags.head {text : Bytes} {compressTaggedContent : Bool} {span : Span}
    (htags : SpanTags text compressTaggedContent span) :
    ∃ name length, (parseTagAt (text.drop span.start)).tag? = some (name, length) ∧
      isKnownHtmlTag name = false := by
  rw [SpanTags] at htags
  split_ifs at htags
  · obtain ⟨name, length, hparse, hhtml, -⟩ := htags
    exact ⟨name, length, hparse, hhtml⟩
  · rcases htags with ⟨name, length, hparse, hhtml, -⟩ | ⟨name, length, -, -, -, hparse, hhtml, -⟩
    · exact ⟨name, length, by rw [hparse]; rfl, hhtml⟩
    · exact ⟨name, length, by rw [hparse]; rfl, hhtml⟩

/-! ## The walk -/

/-- A tag of the stack, read before a limit. -/
structure OpenedAt (text : Bytes) (limit : ℕ) (opened : OpenTag) (name : Bytes) (length : ℕ) :
    Prop where
  boundary : Boundary text opened.openStart
  parsed : parseTagAt (text.drop opened.openStart) = .open name length false
  custom : isKnownHtmlTag name = false
  nameLower : opened.nameLower = name.map asciiLower
  before : opened.openStart + length ≤ limit

/-- The tags behind the stack and the spans. -/
structure Walk.Headed (text : Bytes) (compressTaggedContent : Bool) (limit : ℕ) (walk : Walk) :
    Prop where
  opens : ∀ opened ∈ walk.stack, ∃ name length, OpenedAt text limit opened name length
  spans : ∀ span ∈ walk.spans, Boundary text span.start ∧ Boundary text span.stop ∧
    SpanTags text compressTaggedContent span

namespace Walk.Headed

variable {text : Bytes} {compressTaggedContent : Bool} {limit : ℕ} {walk : Walk}

theorem mono {stop : ℕ} (hwalk : Walk.Headed text compressTaggedContent limit walk)
    (hstop : limit ≤ stop) : Walk.Headed text compressTaggedContent stop walk where
  opens opened hopened :=
    let ⟨name, length, hat⟩ := hwalk.opens opened hopened
    ⟨name, length, { hat with before := hat.before.trans hstop }⟩
  spans := hwalk.spans

/-- Fewer spans and open tags, and one more span. -/
theorem push {spans : List Span} {stack : List OpenTag} {span : Span} (stats : ProtectStats)
    (hwalk : Walk.Headed text compressTaggedContent limit walk) (hspans : spans ⊆ walk.spans)
    (hstack : stack ⊆ walk.stack) (hstart : Boundary text span.start)
    (hstop : Boundary text span.stop) (htags : SpanTags text compressTaggedContent span) :
    Walk.Headed text compressTaggedContent limit ⟨spans ++ [span], stack, stats⟩ where
  opens opened hopened := hwalk.opens opened (hstack hopened)
  spans found hfound := by
    rcases List.mem_append.mp hfound with hfound | hfound
    · exact hwalk.spans found (hspans hfound)
    · rw [List.mem_singleton.mp hfound]
      exact ⟨hstart, hstop, htags⟩

theorem openTag {name : Bytes} {length : ℕ} {isSelfClosing : Bool}
    (hwalk : Walk.Headed text compressTaggedContent limit walk)
    (htag : TagAt text limit name length)
    (hparse : parseTagAt (text.drop limit) = .open name length isSelfClosing) :
    Walk.Headed text compressTaggedContent (limit + length)
      (walk.openTag compressTaggedContent limit name length isSelfClosing) := by
  have hlater := hwalk.mono (Nat.le_add_right limit length)
  rw [Walk.openTag]
  split_ifs with hhtml hself hmarkers
  · exact ⟨hlater.opens, hlater.spans⟩
  · have hcustom := Bool.eq_false_iff.mpr hhtml
    refine hlater.push _ (List.Subset.refl _) (List.Subset.refl _) htag.boundary htag.behind ?_
    rw [SpanTags]
    split_ifs
    · exact ⟨name, length, htag.parsed, hcustom, rfl⟩
    · exact .inl ⟨name, length, by rw [hparse, hself], hcustom, rfl⟩
  all_goals
    have hcustom := Bool.eq_false_iff.mpr hhtml
    have hopened : OpenedAt text (limit + length) ⟨name.map asciiLower, limit⟩ name length :=
      ⟨htag.boundary, by rw [hparse, Bool.eq_false_iff.mpr hself], hcustom, rfl, le_rfl⟩
  · have hpushed : Walk.Headed text compressTaggedContent (limit + length)
        ⟨walk.spans ++ [⟨limit, limit + length, .openMarker⟩], walk.stack, walk.stats⟩ :=
      hlater.push _ (List.Subset.refl _) (List.Subset.refl _) htag.boundary htag.behind
        (by rw [SpanTags, if_pos hmarkers]; exact ⟨name, length, htag.parsed, hcustom, rfl⟩)
    exact ⟨List.forall_mem_cons.mpr ⟨⟨name, length, hopened⟩, hpushed.opens⟩, hpushed.spans⟩
  · exact ⟨List.forall_mem_cons.mpr ⟨⟨name, length, hopened⟩, hlater.opens⟩, hlater.spans⟩

theorem closeTag {name : Bytes} {length : ℕ}
    (hwalk : Walk.Headed text compressTaggedContent limit walk)
    (htag : TagAt text limit name length)
    (hparse : parseTagAt (text.drop limit) = .close name length) :
    Walk.Headed text compressTaggedContent (limit + length)
      (walk.closeTag compressTaggedContent limit name length) := by
  have hlater := hwalk.mono (Nat.le_add_right limit length)
  rw [Walk.closeTag]
  split_ifs with hhtml hmarkers
  · exact ⟨hlater.opens, hlater.spans⟩
  · split
    · rename_i opened below hmatch
      have hsuffix : opened :: below <:+ walk.stack := hmatch ▸ List.dropWhile_suffix _
      refine hlater.push _ (List.Subset.refl _) ?_ htag.boundary htag.behind ?_
      · exact fun other hother => hsuffix.subset
          (List.mem_cons_of_mem _ (List.mem_of_mem_tail hother))
      · rw [SpanTags, if_pos hmarkers]
        exact ⟨name, length, htag.parsed, Bool.eq_false_iff.mpr hhtml, rfl⟩
    · exact ⟨hlater.opens, hlater.spans⟩
  · split
    · rename_i opened below hmatch
      have hsuffix : opened :: below <:+ walk.stack := hmatch ▸ List.dropWhile_suffix _
      obtain ⟨openName, openLength, hopened⟩ :=
        hwalk.opens opened (hsuffix.subset List.mem_cons_self)
      have hsame : opened.nameLower = name.map asciiLower := by
        have hhead := List.head?_dropWhile_not
          (fun opened : OpenTag => opened.nameLower != name.map asciiLower) walk.stack
        rw [hmatch, List.head?_cons] at hhead
        simpa using hhead
      refine hlater.push _ List.filter_sublist.subset ?_ hopened.boundary htag.behind ?_
      · exact fun other hother => hsuffix.subset (List.mem_cons_of_mem _ hother)
      · rw [SpanTags, if_neg hmarkers]
        exact .inr ⟨openName, openLength, name, length, limit, hopened.parsed, hopened.custom,
          hopened.before, hparse, by rw [← hsame, hopened.nameLower], rfl⟩
    · exact ⟨hlater.opens, hlater.spans⟩

end Walk.Headed

/-- The spans of a text hold what they should, and lie between its tags. -/
theorem headed_identifySpans (text : Bytes) (compressTaggedContent : Bool) :
    ∀ span ∈ (identifySpans text compressTaggedContent).1, Boundary text span.start ∧
      Boundary text span.stop ∧ SpanTags text compressTaggedContent span := by
  have hrun : Walk.Headed text compressTaggedContent text.length
      (Walk.run compressTaggedContent 0 0 text .init) := by
    apply Walk.run_invariant ⟨fun _ hopened => absurd hopened List.not_mem_nil,
      fun _ hspan => absurd hspan List.not_mem_nil⟩
    · intro position walk hwalk
      exact hwalk.mono (Nat.le_succ position)
    · intro position walk name length isSelfClosing htag hparse hwalk
      exact hwalk.openTag htag hparse
    · intro position walk name length htag hparse hwalk
      exact hwalk.closeTag htag hparse
  exact hrun.spans

/-! ## Characters -/

/-- In front of an ASCII byte there is a boundary, and behind it. -/
theorem isCharBoundary_of_ascii {text : Bytes} {position : ℕ} {byte : Byte} (hvalid : Valid text)
    (hbyte : byte < 0x80) (hat : text[position]? = some byte) :
    IsCharBoundary text position ∧ IsCharBoundary text (position + 1) := by
  obtain ⟨hlt, hget⟩ := List.getElem?_eq_some_iff.mp hat
  have hdrop : text.drop position = byte :: text.drop (position + 1) := by
    rw [← hget, List.getElem_cons_drop]
  have htake : text.take (position + 1) = text.take position ++ [byte] := by
    rw [List.take_add_one, hat]
    rfl
  have hsplit := hvalid
  rw [← List.take_append_drop position text, hdrop] at hsplit
  obtain ⟨hleft, hright⟩ := hsplit.split hbyte
  constructor
  · refine ⟨hleft, ?_⟩
    rw [hdrop, valid_cons_ascii hbyte]
    exact hright
  · refine ⟨?_, hright⟩
    rw [htake]
    exact hleft.append ((valid_cons_ascii hbyte []).mpr valid_nil)

/-! ## Output -/

/-- The output copies what is between the spans, and its blocks hold the spans. -/
structure Covers (text : Bytes) (spans : List Span) (cleaned : Bytes)
    (blocks : List (Bytes × Bytes)) : Prop where
  originals : blocks.map Prod.snd = spans.map fun span => sliceRange text span.start span.stop
  pieces : ∃ gaps last, gaps.length = spans.length ∧
    (List.zipWith (· ++ ·) gaps (blocks.map Prod.snd)).flatten ++ last = text ∧
    (List.zipWith (· ++ ·) gaps (blocks.map Prod.fst)).flatten ++ last = cleaned

theorem exists_emitFrom {text : Bytes} (tagPrefix : Bytes) {cursor : ℕ} (counter : ℕ)
    {spans : List Span} (hspans : SpansFrom text cursor spans) :
    ∃ cleaned blocks gaps last, emitFrom text tagPrefix cursor counter spans =
        some (cleaned, blocks) ∧
      blocks.map Prod.snd = spans.map (fun span => sliceRange text span.start span.stop) ∧
      gaps.length = spans.length ∧
      (List.zipWith (· ++ ·) gaps (blocks.map Prod.snd)).flatten ++ last = text.drop cursor ∧
      (List.zipWith (· ++ ·) gaps (blocks.map Prod.fst)).flatten ++ last = cleaned := by
  induction spans generalizing cursor counter with
  | nil => exact ⟨_, [], [], _, rfl, rfl, rfl, rfl, rfl⟩
  | cons span spans ih =>
      obtain ⟨hcursor, hlt, -, -, hspans⟩ := hspans
      obtain ⟨cleaned, blocks, gaps, last, hemit, horiginals, hlength, htext, hcleaned⟩ :=
        ih (counter + 1) hspans
      refine ⟨_, _, sliceRange text cursor span.start :: gaps, last,
        by rw [emitFrom, if_neg hcursor.not_gt, hemit]; rfl, ?_, ?_, ?_, ?_⟩
      · exact congrArg (_ :: ·) horiginals
      · exact congrArg (· + 1) hlength
      · rw [List.map_cons, List.zipWith_cons_cons, List.flatten_cons, List.append_assoc, htext,
          List.append_assoc, sliceRange_append_drop hlt.le, sliceRange_append_drop hcursor]
      · rw [List.map_cons, List.zipWith_cons_cons, List.flatten_cons, List.append_assoc, hcleaned]

theorem exists_emitOutput (text : Bytes) (compressTaggedContent : Bool) (tagPrefix : Bytes) :
    ∃ cleaned blocks,
      emitOutput text (identifySpans text compressTaggedContent).1 tagPrefix =
        some (cleaned, blocks) ∧
      Covers text (identifySpans text compressTaggedContent).1 cleaned blocks := by
  obtain ⟨cleaned, blocks, gaps, last, hemit, horiginals, hlength, htext, hcleaned⟩ :=
    exists_emitFrom tagPrefix 0 (spansFrom_identifySpans text compressTaggedContent)
  exact ⟨cleaned, blocks, hemit, horiginals, gaps, last, hlength, htext, hcleaned⟩

/-- The spans of a text are in order and apart, begin and end between characters, and
begin with a custom tag; in block mode a span is a tag that closes itself or ends with
the closing tag.  The output covers the text. -/
theorem identifySpans_spec (text : Utf8String) (compressTaggedContent : Bool) :
    let spans := (identifySpans text.bytes compressTaggedContent).1
    (spans.Pairwise fun left right => left.stop ≤ right.start) ∧
    (∀ span ∈ spans, span.start < span.stop ∧ span.stop ≤ text.bytes.length ∧
      IsCharBoundary text.bytes span.start ∧ IsCharBoundary text.bytes span.stop) ∧
    (compressTaggedContent = false → ∀ span ∈ spans,
      SelfClosingTag text.bytes span ∨ TagBlock text.bytes span) ∧
    (∀ span ∈ spans, ∃ name length,
      (parseTagAt (text.bytes.drop span.start)).tag? = some (name, length) ∧
        isKnownHtmlTag name = false) ∧
    ∀ tagPrefix, ∃ cleaned blocks, emitOutput text.bytes spans tagPrefix = some (cleaned, blocks) ∧
      Covers text.bytes spans cleaned blocks := by
  obtain ⟨hends, hsorted⟩ := ordered_identifySpans text.bytes compressTaggedContent
  have hheaded := headed_identifySpans text.bytes compressTaggedContent
  refine ⟨hsorted, ?_, ?_, ?_, exists_emitOutput text.bytes compressTaggedContent⟩
  · intro span hspan
    obtain ⟨hlt, hle, hfirst, hlast⟩ := hends span hspan
    have hstop := (isCharBoundary_of_ascii text.valid (by decide) hlast).2
    rw [Nat.sub_add_cancel (Nat.zero_lt_of_lt hlt)] at hstop
    exact ⟨hlt, hle, (isCharBoundary_of_ascii text.valid (by decide) hfirst).1, hstop⟩
  · rintro rfl span hspan
    have htags := (hheaded span hspan).2.2
    rwa [SpanTags, if_neg Bool.false_ne_true] at htags
  · intro span hspan
    exact (hheaded span hspan).2.2.head

/-- A tag that closes itself is a span of its own. -/
theorem selfClosing_span :
    ¬ ∀ text : Utf8String, ∀ span ∈ (identifySpans text.bytes false).1,
      TagBlock text.bytes span := by
  intro hclaim
  have hspan : (⟨0, 4, .selfClosing⟩ : Span) ∈ (identifySpans (ascii "<x/>") false).1 := by decide
  obtain ⟨name, length, -, -, -, hparse, -⟩ := hclaim (constant "<x/>") _ hspan
  have hself : parseTagAt ((ascii "<x/>").drop 0) = .open (ascii "x") 4 true := by decide
  cases hself.symm.trans hparse

/-!
## Lost placeholders

Restoring puts back the tags whose placeholders survived.  The opening and the closing
tags of a name then differ as they did in the text exactly if they do not differ among
those that were lost, unless the loss joins bytes to a tag or to a placeholder.
-/

open Bedrock (asciiLower)
open Segment Tokens

/-! ## Excess -/

/-- An opening tag of the name counts one up, a closing tag one down. -/
def TagParse.excess (name : Bytes) : TagParse → ℤ
  | .open found _ isSelfClosing =>
      if isSelfClosing = false ∧ found.map asciiLower = name.map asciiLower then 1 else 0
  | .close found _ => if found.map asciiLower = name.map asciiLower then -1 else 0
  | .notTag => 0

/-- By how many the opening tags of a name outnumber the closing ones. -/
def excess (name text : Bytes) : ℤ := ((tagsOf text).map (TagParse.excess name)).sum

/-! ## Pieces that are kept and pieces that are lost -/

/-- The pieces of a text, each kept or not. -/
abbrev Pieces := List (Bytes × Bool)

namespace Pieces

def whole (pieces : Pieces) : Bytes := (pieces.map Prod.fst).flatten

def kept (pieces : Pieces) : Bytes := ((pieces.filter Prod.snd).map Prod.fst).flatten

def lost (pieces : Pieces) : List Bytes := (pieces.filter fun piece => !piece.2).map Prod.fst

/-- Each piece ends where its last tag does. -/
def Closed : Pieces → Prop
  | [] => True
  | piece :: pieces => (readPiece (whole pieces) 0 piece.1).overrun = 0 ∧ Closed pieces

/-- No `<` of a kept piece that begins no tag begins one once the others are gone. -/
def Steady : Pieces → Prop
  | [] => True
  | piece :: pieces =>
      (piece.2 = true → ∀ stray ∈ (readPiece (whole pieces) 0 piece.1).strays,
        parseTagAt (stray ++ kept pieces) = .notTag) ∧ Steady pieces

instance decidableSteady : (pieces : Pieces) → Decidable (Steady pieces)
  | [] => isTrue trivial
  | _ :: pieces =>
      have := decidableSteady pieces
      inferInstanceAs (Decidable (_ ∧ _))

theorem whole_cons (piece : Bytes × Bool) (pieces : Pieces) :
    whole (piece :: pieces) = piece.1 ++ whole pieces := rfl

theorem kept_cons (piece : Bytes × Bool) (pieces : Pieces) :
    kept (piece :: pieces) = if piece.2 then piece.1 ++ kept pieces else kept pieces := by
  rw [kept, List.filter_cons]
  split_ifs <;> rfl

theorem tagsOf_append {front back : Bytes} (hclosed : (readPiece back 0 front).overrun = 0) :
    tagsOf (front ++ back) = tagsOf front ++ tagsOf back := by
  have hread := (@readPiece_append [] 0 front back).1
  rw [List.append_nil, hclosed] at hread
  rw [tagsOf_piece hclosed]
  exact hread

theorem excess_append (name : Bytes) {front back : Bytes}
    (hclosed : (readPiece back 0 front).overrun = 0) :
    excess name (front ++ back) = excess name front + excess name back := by
  rw [excess, tagsOf_append hclosed, List.map_append, List.sum_append]
  rfl

/-- What is kept and what is lost make up the excess of the text. -/
theorem excess_whole (name : Bytes) {pieces : Pieces} (hclosed : Closed pieces)
    (hsteady : Steady pieces) :
    excess name (whole pieces) =
      excess name (kept pieces) + ((lost pieces).map (excess name)).sum := by
  induction pieces with
  | nil => rfl
  | cons piece pieces ih =>
      obtain ⟨hpiece, hclosed⟩ := hclosed
      obtain ⟨hstrays, hsteady⟩ := hsteady
      have hrest := ih hclosed hsteady
      rw [whole_cons, excess_append name hpiece, hrest, kept_cons]
      obtain ⟨bytes, keep⟩ := piece
      cases keep with
      | true =>
          have hkept : (readPiece (kept pieces) 0 bytes).overrun = 0 := by
            rw [readPiece_congr hpiece (hstrays rfl)]
            exact hpiece
          rw [if_pos rfl, excess_append name hkept, add_assoc]
          rfl
      | false =>
          rw [if_neg Bool.false_ne_true]
          have hlost : lost ((bytes, false) :: pieces) = bytes :: lost pieces := rfl
          rw [hlost, List.map_cons, List.sum_cons]
          ring

end Pieces

/-! ## The pieces of a protected text -/

section

variable (text : Bytes) (lost : ℕ → Bool)

/-- What is between the spans is kept, and the spans whose placeholders are not lost. -/
def piecesFrom : ℕ → ℕ → List Span → Pieces
  | cursor, _, [] => [(text.drop cursor, true)]
  | cursor, counter, span :: spans =>
      (sliceRange text cursor span.start, true) ::
        (sliceRange text span.start span.stop, !lost counter) ::
          piecesFrom span.stop (counter + 1) spans

/-- The protected text without the placeholders that are lost. -/
def cleanedFrom (tagPrefix : Bytes) : ℕ → ℕ → List Span → Bytes
  | cursor, _, [] => text.drop cursor
  | cursor, counter, span :: spans =>
      sliceRange text cursor span.start ++
        ((if lost counter then [] else placeholder tagPrefix counter) ++
          cleanedFrom tagPrefix span.stop (counter + 1) spans)

/-- The segments of the protected text without the marks that are lost. -/
def keptSegments : ℕ → ℕ → List Span → List (Segment Byte)
  | cursor, _, [] => (text.drop cursor).map .item
  | cursor, counter, span :: spans =>
      (sliceRange text cursor span.start).map .item ++
        ((if lost counter then [] else [.mark counter]) ++
          keptSegments span.stop (counter + 1) spans)

end

def spansOf (text : Bytes) (compressTaggedContent : Bool) : List Span :=
  (identifySpans text compressTaggedContent).1

def piecesOf (text : Bytes) (compressTaggedContent : Bool) (lost : ℕ → Bool) : Pieces :=
  piecesFrom text lost 0 0 (spansOf text compressTaggedContent)

/-- The protected text behind a compressor that deletes placeholders. -/
def compressed (text : Bytes) (compressTaggedContent : Bool) (lost : ℕ → Bool) : Bytes :=
  cleanedFrom text lost (pickPlaceholderPrefix text).1 0 0 (spansOf text compressTaggedContent)

def restored (text : Bytes) (compressTaggedContent : Bool) (lost : ℕ → Bool) : Bytes :=
  restoreTags (compressed text compressTaggedContent lost)
    (protectTags text compressTaggedContent).2.1

/-- For every custom tag, opening and closing tags differ by as many as in the text. -/
def TagSymmetric (text : Bytes) (compressTaggedContent : Bool) (lost : ℕ → Bool) : Prop :=
  ∀ name, isKnownHtmlTag name = false →
    excess name (restored text compressTaggedContent lost) = excess name text

variable {text : Bytes} {compressTaggedContent : Bool} {lost : ℕ → Bool}

theorem whole_piecesFrom {cursor : ℕ} (counter : ℕ) {spans : List Span}
    (hspans : SpansFrom text cursor spans) :
    (piecesFrom text lost cursor counter spans).whole = text.drop cursor := by
  induction spans generalizing cursor counter with
  | nil =>
      rw [piecesFrom, Pieces.whole_cons]
      exact List.append_nil _
  | cons span spans ih =>
      obtain ⟨hcursor, hlt, -, -, hspans⟩ := hspans
      rw [piecesFrom, Pieces.whole_cons, Pieces.whole_cons, ih (counter + 1) hspans,
        sliceRange_append_drop hlt.le, sliceRange_append_drop hcursor]

theorem closed_piecesFrom {cursor : ℕ} (counter : ℕ) {spans : List Span}
    (hspans : SpansFrom text cursor spans) (hcursor : Boundary text cursor)
    (hboundaries : ∀ span ∈ spans, Boundary text span.start ∧ Boundary text span.stop) :
    (piecesFrom text lost cursor counter spans).Closed := by
  induction spans generalizing cursor counter with
  | nil =>
      refine ⟨?_, trivial⟩
      have hclosed := closed_sliceRange hcursor (boundary_length text) hcursor.1
      rw [List.drop_length, sliceRange, List.take_length] at hclosed
      exact hclosed
  | cons span spans ih =>
      obtain ⟨hle, hlt, -, -, hspans⟩ := hspans
      obtain ⟨⟨hstart, hstop⟩, hboundaries⟩ := List.forall_mem_cons.mp hboundaries
      have hrest := @whole_piecesFrom text lost _ (counter + 1) _ hspans
      refine ⟨?_, ?_, ih (counter + 1) hspans hstop hboundaries⟩
      · rw [Pieces.whole_cons, hrest, sliceRange_append_drop hlt.le]
        exact closed_sliceRange hcursor hstart hle
      · rw [hrest]
        exact closed_sliceRange hstart hstop hlt.le

theorem closed_piecesOf : (piecesOf text compressTaggedContent lost).Closed :=
  closed_piecesFrom 0 (spansFrom_identifySpans text compressTaggedContent) (boundary_zero text)
    fun span hspan =>
      let ⟨hstart, hstop, _⟩ := headed_identifySpans text compressTaggedContent span hspan
      ⟨hstart, hstop⟩

theorem whole_piecesOf : (piecesOf text compressTaggedContent lost).whole = text :=
  whole_piecesFrom 0 (spansFrom_identifySpans text compressTaggedContent)

/-! ## Restoring -/

theorem cleanedFrom_eq (tagPrefix : PlaceholderPrefix) (cursor counter : ℕ) (spans : List Span) :
    cleanedFrom text lost tagPrefix.bytes cursor counter spans =
      tagPrefix.tokens.render (keptSegments text lost cursor counter spans) := by
  induction spans generalizing cursor counter with
  | nil => exact (render_map_item tagPrefix.tokens _).symm
  | cons span spans ih =>
      rw [cleanedFrom, keptSegments, render_append, render_append, render_map_item, ih]
      split_ifs
      · rfl
      · rw [render_mark]
        rfl

/-- With every mark replaced, the segments are the pieces that are kept. -/
theorem render_expand_keptSegments (tokens : Tokens Byte) {news : ℕ → Bytes}
    {cursor counter limit : ℕ} {spans : List Span} (hnews : Originals text news counter spans)
    (hlimit : counter + spans.length ≤ limit) :
    tokens.render (expand news limit (keptSegments text lost cursor counter spans)) =
      (piecesFrom text lost cursor counter spans).kept := by
  induction spans generalizing cursor counter with
  | nil =>
      rw [keptSegments, piecesFrom, ← List.append_nil (List.map _ _), expand_map_item_append,
        render_append, render_map_item]
      rfl
  | cons span spans ih =>
      obtain ⟨hnew, hnews⟩ := hnews.cons
      rw [List.length_cons] at hlimit
      have hrest := @ih span.stop (counter + 1) hnews (by omega)
      rw [keptSegments, piecesFrom, expand_map_item_append, render_append, render_map_item,
        Pieces.kept_cons, if_pos rfl, Pieces.kept_cons]
      cases hlost : lost counter with
      | true => rw [if_pos rfl, List.nil_append, if_neg (by simp), hrest]
      | false =>
          rw [if_neg (by simp), if_pos (by simp), List.singleton_append, expand_cons_mark,
            if_pos (by omega), render_append, render_map_item, hrest, hnew]

/-- What is kept spells no placeholder. -/
def Unspelled (text : Bytes) (compressTaggedContent : Bool) (lost : ℕ → Bool) : Prop :=
  ∀ number < (spansOf text compressTaggedContent).length,
    ¬placeholder (pickPlaceholderPrefix text).1 number <:+:
      (piecesOf text compressTaggedContent lost).kept

instance : Decidable (Unspelled text compressTaggedContent lost) :=
  inferInstanceAs (Decidable (∀ number < _, _))

/-- Restoring gives the pieces that are kept. -/
theorem restored_eq_kept (hunspelled : Unspelled text compressTaggedContent lost) :
    restored text compressTaggedContent lost = (piecesOf text compressTaggedContent lost).kept := by
  obtain ⟨tagPrefix, hbegins⟩ := exists_prefix text
  have hkept : tagPrefix.tokens.render
      (expand (original text (spansOf text compressTaggedContent))
        (spansOf text compressTaggedContent).length
        (keptSegments text lost 0 0 (spansOf text compressTaggedContent))) =
      (piecesOf text compressTaggedContent lost).kept :=
    render_expand_keptSegments tagPrefix.tokens (originals_original text _) (Nat.zero_add _).le
  rw [restored, compressed, hbegins, cleanedFrom_eq,
    (protectTags_eq tagPrefix hbegins compressTaggedContent).2, restoreTags_eq]
  refine (tagPrefix.tokens.restored_render fun number hnumber => ?_).trans hkept
  refine clear_of_absent hnumber.le ?_
  have habsent := hunspelled number hnumber
  rw [hbegins] at habsent
  rwa [← hkept] at habsent

/-- Where the loss joins nothing, tags stay symmetric exactly if those that are lost are. -/
theorem tagSymmetric_iff (text : Bytes) (compressTaggedContent : Bool) (lost : ℕ → Bool)
    (hunspelled : Unspelled text compressTaggedContent lost)
    (hsteady : (piecesOf text compressTaggedContent lost).Steady) :
    TagSymmetric text compressTaggedContent lost ↔
      ∀ name, isKnownHtmlTag name = false →
        ((piecesOf text compressTaggedContent lost).lost.map (excess name)).sum = 0 := by
  refine forall₂_congr fun name _ => ?_
  have hwhole := Pieces.excess_whole name
    (@closed_piecesOf text compressTaggedContent lost) hsteady
  rw [whole_piecesOf] at hwhole
  rw [restored_eq_kept hunspelled, hwhole]
  omega

/-- Both markers of a tag are lost. -/
theorem tagSymmetric_both : TagSymmetric (ascii "<x>y</x>") true fun _ => true := by
  have hlost : (piecesOf (ascii "<x>y</x>") true fun _ => true).lost =
      [ascii "<x>", ascii "</x>"] := by decide +kernel
  have hopen : tagsOf (ascii "<x>") = [.open (ascii "x") 3 false] := by decide +kernel
  have hclose : tagsOf (ascii "</x>") = [.close (ascii "x") 4] := by decide +kernel
  refine (tagSymmetric_iff (ascii "<x>y</x>") true (fun _ => true) (by decide +kernel)
    (by decide +kernel)).mpr ?_
  intro name _
  rw [hlost, List.map_cons, List.map_singleton, excess, excess, hopen, hclose]
  simp only [List.map_singleton, List.sum_cons, TagParse.excess, true_and]
  split_ifs <;> rfl

/-- The opening marker of a tag is lost, and its closing tag is put back. -/
theorem not_tagSymmetric_opening :
    ¬ ∀ text compressTaggedContent lost, TagSymmetric text compressTaggedContent lost := by
  intro hclaim
  have hexcess := hclaim (ascii "<x>y</x>") true (fun number => number == 0) (ascii "x") (by decide +kernel)
  exact absurd hexcess (by decide +kernel)

end Legroom.Transforms
