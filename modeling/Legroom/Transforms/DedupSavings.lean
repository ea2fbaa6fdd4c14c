import Mathlib.Algebra.Order.BigOperators.Group.List
import Legroom.Lib.SplitOn
import Legroom.Transforms.DedupMonotone

/-!
# What a fold saves

A fold replaces a span by a pointer, whose size is that of its numbers and of the anchor as
it is written by `repr`.  Only the size of the span is compared with a bound.
-/

namespace Legroom.CrossTurnDedup

open Python

/-- A size of texts in which an ASCII character counts one. -/
structure Measure where
  weight : CodePoint → ℕ
  ascii (char : CodePoint) (hascii : char.val < 0x80) : weight char = 1

def Measure.characters : Measure := ⟨fun _ => 1, fun _ _ => rfl⟩

/-- The length in UTF-8. -/
def Measure.utf8 : Measure where
  weight char :=
    if char.val < 0x80 then 1 else if char.val < 0x800 then 2
    else if char.val < 0x10000 then 3 else 4
  ascii _ hascii := if_pos hascii

namespace Measure

variable (measure : Measure)

def size (text : Text) : ℕ := (text.map measure.weight).sum

theorem size_append (left right : Text) :
    measure.size (left ++ right) = measure.size left + measure.size right := by
  rw [size, size, size, List.map_append, List.sum_append]

theorem size_cons (char : CodePoint) (text : Text) :
    measure.size (char :: text) = measure.weight char + measure.size text := by
  rw [size, size, List.map_cons, List.sum_cons]

theorem size_singleton (char : CodePoint) : measure.size [char] = measure.weight char :=
  Nat.add_zero _

theorem size_ascii {text : Text} (hascii : ∀ char ∈ text, char.val < 0x80) :
    measure.size text = text.length := by
  induction text with
  | nil => rfl
  | cons char text ih =>
      rw [size_cons, measure.ascii char (hascii char List.mem_cons_self),
        ih fun other hother => hascii other (List.mem_cons_of_mem _ hother), List.length_cons,
        Nat.add_comm]

theorem size_text (literal : String)
    (hascii : (literal.toList.all fun char => char.toNat < 0x80) = true) :
    measure.size (text literal) = literal.toList.length := by
  rw [size_ascii measure (fun char hchar => ?_), text, List.length_map]
  obtain ⟨letter, hletter, rfl⟩ := List.mem_map.mp hchar
  rw [codePoint_val]
  exact of_decide_eq_true (List.all_eq_true.mp hascii letter hletter)

/-- Every line is counted with a line feed. -/
theorem size_joinLines {lines : List Text} (hne : lines ≠ []) :
    measure.size (joinLines lines) + 1 = (lines.map fun line => measure.size line + 1).sum := by
  induction lines with
  | nil => exact absurd rfl hne
  | cons line rest ih =>
      rcases eq_or_ne rest [] with rfl | hrest
      · rw [joinLines, List.intercalate_singleton, List.map_singleton, List.sum_singleton]
      · have hjoin : joinLines (line :: rest) = line ++ newline :: joinLines rest := by
          obtain ⟨second, others, rfl⟩ := List.exists_cons_of_ne_nil hrest
          rw [joinLines, joinLines, List.intercalate_cons_cons, List.append_assoc]
          rfl
        rw [hjoin, size_append, size_cons, measure.ascii newline (by decide), List.map_cons,
          List.sum_cons, ← ih hrest]
        omega

/-! ## The size of a pointer -/

/-- The size of a character in the output of `repr`. -/
def escapedSize (tables : CharTables) (quote char : CodePoint) : ℕ :=
  if char = quote ∨ char = codePoint '\\' ∨ char = tab ∨ char = newline ∨ char = 0x0D then 2
  else if tables.isPrintable char then measure.weight char
  else if char < 0x100 then 4
  else if char < 0x10000 then 6
  else 10

theorem ascii_hexText (width value : ℕ) : ∀ char ∈ hexText width value, char.val < 0x80 := by
  intro char hchar
  obtain ⟨place, -, rfl⟩ := List.mem_map.mp hchar
  have hall : ∀ digit < 16, (codePoint (Nat.digitChar digit)).val < 0x80 := by decide +kernel
  exact hall _ (Nat.mod_lt _ (by decide))

theorem size_hexText (width value : ℕ) : measure.size (hexText width value) = width := by
  rw [size_ascii measure (ascii_hexText width value), hexText, List.length_map,
    List.length_reverse, List.length_range]

variable (tables : CharTables)

theorem size_reprChar {quote : CodePoint} (hquote : quote.val < 0x80) (char : CodePoint) :
    measure.size (reprChar tables quote char) = measure.escapedSize tables quote char := by
  have hpair : ∀ char : CodePoint, char.val < 0x80 →
      measure.size [codePoint '\\', char] = 2 := fun char hchar => by
    rw [size_cons, size_cons, measure.ascii char hchar, measure.ascii _ (by decide +kernel)]
    rfl
  have htab : measure.size (text "\\t") = 2 := size_text measure _ rfl
  have hnewline : measure.size (text "\\n") = 2 := size_text measure _ rfl
  have hreturn : measure.size (text "\\r") = 2 := size_text measure _ rfl
  have hbyte : measure.size (text "\\x") = 2 := size_text measure _ rfl
  have hbasic : measure.size (text "\\u") = 2 := size_text measure _ rfl
  have hlong : measure.size (text "\\U") = 2 := size_text measure _ rfl
  rw [reprChar, escapedSize]
  by_cases hescaped : char = quote ∨ char = codePoint '\\'
  · have hsmall : char.val < 0x80 := by
      rcases hescaped with rfl | rfl
      · exact hquote
      · decide +kernel
    rw [if_pos hescaped, if_pos (hescaped.imp_right .inl), hpair char hsmall]
  · obtain ⟨hne, hbackslash⟩ := not_or.mp hescaped
    rw [if_neg hescaped]
    by_cases htabbed : char = tab
    · rw [if_pos htabbed, if_pos (.inr (.inr (.inl htabbed))), htab]
    by_cases hended : char = newline
    · rw [if_neg htabbed, if_pos hended, if_pos (.inr (.inr (.inr (.inl hended)))), hnewline]
    by_cases hreturned : char = 0x0D
    · rw [if_neg htabbed, if_neg hended, if_pos hreturned,
        if_pos (.inr (.inr (.inr (.inr hreturned)))), hreturn]
    have hplain : ¬(char = quote ∨ char = codePoint '\\' ∨ char = tab ∨ char = newline ∨
        char = 0x0D) := by
      rintro (heq | heq | heq | heq | heq)
      · exact hne heq
      · exact hbackslash heq
      · exact htabbed heq
      · exact hended heq
      · exact hreturned heq
    rw [if_neg htabbed, if_neg hended, if_neg hreturned, if_neg hplain]
    split_ifs
    · exact size_singleton measure char
    · rw [size_append, size_hexText, hbyte]
    · rw [size_append, size_hexText, hbasic]
    · rw [size_append, size_hexText, hlong]

theorem size_escaped {quote : CodePoint} (hquote : quote.val < 0x80) (value : Text) :
    measure.size (value.flatMap (reprChar tables quote)) =
      (value.map (measure.escapedSize tables quote)).sum := by
  induction value with
  | nil => rfl
  | cons char rest ih =>
      rw [List.flatMap_cons, size_append, size_reprChar measure tables hquote, ih, List.map_cons,
        List.sum_cons]

/-- The size of the output of `repr`. -/
def reprSize (tables : CharTables) (value : Text) : ℕ :=
  let quote :=
    if codePoint '\'' ∈ value ∧ codePoint '"' ∉ value then codePoint '"' else codePoint '\''
  2 + (value.map (measure.escapedSize tables quote)).sum

theorem size_repr (value : Text) :
    measure.size (repr tables value) = measure.reprSize tables value := by
  rw [Python.repr, reprSize]
  generalize hquote : (if codePoint '\'' ∈ value ∧ codePoint '"' ∉ value then codePoint '"'
    else codePoint '\'') = quote
  have hascii : quote.val < 0x80 := by
    rw [← hquote]
    split_ifs
    · exact (codePoint_val '"').trans_lt (by decide)
    · exact (codePoint_val '\'').trans_lt (by decide)
  rw [size_append, size_append, size_singleton, measure.ascii quote hascii,
    size_escaped measure tables hascii value]
  omega

def digitCount (value : ℤ) : ℕ := (decimalText value.natAbs).length

/-- The size of the pointer to a span, from its numbers and the beginning of its first line. -/
def pointerSize (tables : CharTables) (span : List Text) (refTurn delta : ℤ) : Option ℕ :=
  (anchorOf tables span).map fun anchor =>
    18 + measure.weight (codePoint '↑') + digitCount span.length +
      (digitCount refTurn + if refTurn < 0 then 1 else 0) +
      (if delta = 0 then 0 else 3 + digitCount delta) + measure.reprSize tables anchor

theorem ascii_decimalText (value : ℕ) : ∀ char ∈ decimalText value, char.val < 0x80 :=
  fun _ hchar => (digit_of_mem_decimalText hchar).2.trans_lt (by decide)

theorem size_intText {value : ℤ} {digits : Text} (hdigits : intText value = some digits) :
    measure.size digits = digitCount value + if value < 0 then 1 else 0 := by
  have hplain := size_ascii measure (ascii_decimalText value.natAbs)
  rw [intText] at hdigits
  split_ifs at hdigits with hlong hneg
  · cases hdigits
    rw [size_cons, measure.ascii _ ((codePoint_val '-').trans_lt (by decide)), hplain, if_pos hneg,
      digitCount, Nat.add_comm]
  · cases hdigits
    rw [hplain, if_neg hneg, digitCount, Nat.add_zero]

theorem size_shiftText {delta : ℤ} {shift : Text} (hshift : shiftText delta = some shift) :
    measure.size shift = if delta = 0 then 0 else 3 + digitCount delta := by
  rw [shiftText] at hshift
  split_ifs at hshift with hzero
  · cases hshift
    rw [if_pos hzero]
    rfl
  · obtain ⟨signed, hsigned, rfl⟩ := Option.map_eq_some_iff.mp hshift
    obtain ⟨plain, hplain, rfl⟩ := Option.map_eq_some_iff.mp hsigned
    have hblank : measure.size (text " ") = 1 := size_text measure _ rfl
    have hletter : measure.size (text "L") = 1 := size_text measure _ rfl
    have hdigits := measure.size_intText hplain
    rw [size_append, size_append, hblank, hletter, if_neg hzero]
    split_ifs at hdigits ⊢
    · omega
    · rw [size_cons, measure.ascii _ ((codePoint_val '+').trans_lt (by decide))]
      omega

theorem size_pointerText {tables : CharTables} {span : List Text} {refTurn delta : ℤ}
    {pointer : Text} (hpointer : pointerText tables span refTurn delta = some pointer) :
    measure.pointerSize tables span refTurn delta = some (measure.size pointer) := by
  simp only [pointerText, bind, Option.bind_eq_some_iff] at hpointer
  obtain ⟨anchor, hanchor, count, hcount, turn, hturn, shift, hshift, hpointer⟩ := hpointer
  cases hpointer
  have hopen : measure.size (text "[↑") = 1 + measure.weight (codePoint '↑') := by
    have hbracket := measure.ascii (codePoint '[') ((codePoint_val '[').trans_lt (by decide))
    rw [show text "[↑" = [codePoint '[', codePoint '↑'] from rfl, size_cons, hbracket,
      size_singleton]
  have hsame : measure.size (text "L same as msg ") = 14 := size_text measure _ rfl
  have hcolon : measure.size (text ": ") = 2 := size_text measure _ rfl
  have hclose : measure.size (text "]") = 1 := size_text measure _ rfl
  have hpositive : ¬((span.length : ℤ) < 0) := by omega
  rw [pointerSize, hanchor, Option.map_some]
  simp only [size_append, hopen, hsame, hcolon, hclose, measure.size_intText hcount,
    measure.size_intText hturn, measure.size_shiftText hshift, size_repr, if_neg hpositive]
  congr 1
  omega

end Measure

/-! ## Folds -/

def EmittedBlock.pointers (block : EmittedBlock) : List Pointer :=
  block.pieces.filterMap fun piece =>
    match piece with
    | .line _ => none
    | .folded pointer => some pointer

theorem EmittedBlock.mem_pointers {block : EmittedBlock} {pointer : Pointer} :
    pointer ∈ block.pointers ↔ .folded pointer ∈ block.pieces := by
  rw [pointers, List.mem_filterMap]
  constructor
  · rintro ⟨piece, hpiece, hpointer⟩
    cases piece with
    | line text => cases hpointer
    | folded other =>
        cases hpointer
        exact hpiece
  · exact fun hpointer => ⟨.folded pointer, hpointer, rfl⟩

theorem pointers_emitUnchanged (block : DedupBlock) : (emitUnchanged block).pointers = [] := by
  refine List.eq_nil_iff_forall_not_mem.mpr fun pointer hpointer => ?_
  obtain ⟨line, -, hline⟩ := List.mem_map.mp (EmittedBlock.mem_pointers.mp hpointer)
  cases hline

section

variable (tables : CharTables) (minLines minChars : ℤ) (measure : Measure)

/-- `chars_removed`, in a measure. -/
def removed (emitted : List EmittedBlock) : ℤ :=
  ((emitted.flatMap EmittedBlock.pointers).map fun pointer =>
    (measure.size (joinLines pointer.span) : ℤ) - measure.size pointer.text).sum

/-- A pointer is smaller than its span. -/
def Pointer.Pays (pointer : Pointer) : Prop :=
  measure.size pointer.text < measure.size (joinLines pointer.span)

/-- Folding makes nothing larger. -/
structure SavesSpace (blocks : List DedupBlock) : Prop where
  folds : ∀ emitted ∈ dedupBlocks tables minLines minChars blocks,
    ∀ pointer ∈ emitted.pointers, pointer.Pays measure
  texts : List.Forall₂ (fun block emitted => measure.size emitted.text ≤ measure.size block.text)
    blocks (dedupBlocks tables minLines minChars blocks)
  total : ((dedupBlocks tables minLines minChars blocks).map fun emitted =>
    measure.size emitted.text).sum ≤ (blocks.map fun block => measure.size block.text).sum
  removed : 0 ≤ removed measure (dedupBlocks tables minLines minChars blocks)

/-- The runs that are folded are larger than the pointers to them. -/
def spansPay (corpus : Corpus) : ℕ → List Text → Bool
  | fuel + 1, line :: lines =>
      match longestMatch tables corpus (line :: lines) with
      | some found =>
          if found.isFolded minLines minChars (line :: lines) then
            let span := (line :: lines).take found.length
            let refTurn := (corpus.blocks.map Prod.fst).getD found.block 0
            (measure.pointerSize tables span refTurn found.delta).all
                (· < measure.size (joinLines span)) &&
              spansPay corpus fuel ((line :: lines).drop found.length)
          else spansPay corpus fuel lines
      | none => true
  | _, _ => true

def foldsPay : Corpus → List DedupBlock → Bool
  | _, [] => true
  | corpus, block :: blocks =>
      (block.isProtected ||
        spansPay tables minLines minChars measure corpus (splitLines block.text).length
          (splitLines block.text)) &&
      match emit tables minLines minChars corpus block with
      | some emitted =>
          match extend tables corpus emitted with
          | some next => foldsPay next blocks
          | none => true
      | none => true

variable {tables minLines minChars measure}
variable {corpus : Corpus}

/-- Along the pieces of a block. -/
theorem spansPay_iff {fuel : ℕ} {lines : List Text} {pieces : List Piece}
    (hscan : scanLines tables minLines minChars corpus fuel lines = some pieces) :
    spansPay tables minLines minChars measure corpus fuel lines = true ↔
      ∀ pointer, .folded pointer ∈ pieces → pointer.Pays measure := by
  induction fuel generalizing lines pieces with
  | zero =>
      cases hscan
      exact iff_of_true rfl fun pointer hpointer => absurd hpointer List.not_mem_nil
  | succ fuel ih =>
      cases lines with
      | nil =>
          cases hscan
          exact iff_of_true rfl fun pointer hpointer => absurd hpointer List.not_mem_nil
      | cons line lines =>
          obtain ⟨found, hfound, hcases⟩ := scanLines_cases hscan
          rw [spansPay, hfound]
          dsimp only
          rcases hcases with ⟨hkept, rest, hrest, rfl⟩ | ⟨hfold, text, htext, rest, hrest, rfl⟩
          · rw [hkept, if_neg Bool.false_ne_true, ih hrest]
            refine forall_congr' fun pointer => ?_
            rw [List.mem_cons, or_iff_right fun heq => by cases heq]
          · rw [if_pos hfold, Bool.and_eq_true, ih hrest, measure.size_pointerText htext,
              Option.all_some, decide_eq_true_iff]
            constructor
            · rintro ⟨hfirst, hothers⟩ pointer hpointer
              rcases List.mem_cons.mp hpointer with heq | hpointer
              · cases heq
                exact hfirst
              · exact hothers pointer hpointer
            · intro hall
              exact ⟨hall _ List.mem_cons_self, fun pointer hpointer =>
                hall pointer (List.mem_cons_of_mem _ hpointer)⟩

/-- A block without a fold that costs space does not grow. -/
theorem size_pieces_le {pieces : List Piece} (hcovered : ∀ piece ∈ pieces, piece.covered ≠ [])
    (hpays : ∀ pointer, .folded pointer ∈ pieces → pointer.Pays measure) :
    ((pieces.map Piece.text).map fun line => measure.size line + 1).sum ≤
      ((pieces.flatMap Piece.covered).map fun line => measure.size line + 1).sum := by
  induction pieces with
  | nil => exact Nat.le_refl _
  | cons piece pieces ih =>
      obtain ⟨hpiece, hcovered⟩ := List.forall_mem_cons.mp hcovered
      have hrest := ih hcovered fun pointer hpointer =>
        hpays pointer (List.mem_cons_of_mem _ hpointer)
      rw [List.map_cons, List.map_cons, List.sum_cons, List.flatMap_cons, List.map_append,
        List.sum_append]
      refine Nat.add_le_add ?_ hrest
      cases piece with
      | line text => exact Nat.le_refl _
      | folded pointer =>
          have hpointer : measure.size pointer.text < measure.size (joinLines pointer.span) :=
            hpays pointer List.mem_cons_self
          have hspan := measure.size_joinLines hpiece
          change measure.size pointer.text + 1 ≤ _
          rw [← hspan]
          exact Nat.succ_le_succ hpointer.le

theorem emit_spec (measure : Measure) {block : DedupBlock} {emitted : EmittedBlock}
    (hemit : emit tables minLines minChars corpus block = some emitted) :
    ((block.isProtected || spansPay tables minLines minChars measure corpus
        (splitLines block.text).length (splitLines block.text)) = true ↔
      ∀ pointer ∈ emitted.pointers, pointer.Pays measure) ∧
    ((∀ pointer ∈ emitted.pointers, pointer.Pays measure) →
      measure.size emitted.text ≤ measure.size block.text) := by
  rw [emit] at hemit
  split_ifs at hemit with hprotected
  · cases hemit
    rw [hprotected, Bool.true_or, pointers_emitUnchanged, emitUnchanged_text]
    exact ⟨iff_of_true rfl fun pointer hpointer => absurd hpointer List.not_mem_nil,
      fun _ => Nat.le_refl _⟩
  · obtain ⟨pieces, hscan, rfl⟩ := Option.map_eq_some_iff.mp hemit
    rw [Bool.eq_false_iff.mpr hprotected, Bool.false_or, spansPay_iff hscan]
    simp only [EmittedBlock.mem_pointers]
    refine ⟨trivial, fun hpays => ?_⟩
    obtain ⟨hcovered, hpieces⟩ := scanLines_covers hscan (Nat.le_refl _)
      fun line hline => newline_not_mem_splitLines hline
    have hsize := size_pieces_le (fun piece hpiece => (hpieces piece hpiece).1) hpays
    have hlines : splitLines block.text ≠ [] := List.splitOn_ne_nil newline block.text
    have htexts : pieces.map Piece.text ≠ [] := by
      intro hnil
      rw [List.map_eq_nil_iff.mp hnil] at hcovered
      exact hlines hcovered.symm
    rw [hcovered, ← measure.size_joinLines htexts, ← measure.size_joinLines hlines,
      joinLines_splitLines] at hsize
    exact Nat.le_of_succ_le_succ hsize

variable {blocks : List DedupBlock}
variable {result : List EmittedBlock}

/-- Along a run. -/
theorem foldsPay_iff (measure : Measure)
    (hdedup : dedupFrom tables minLines minChars corpus blocks = some result) :
    (foldsPay tables minLines minChars measure corpus blocks = true ↔
      ∀ emitted ∈ result, ∀ pointer ∈ emitted.pointers, pointer.Pays measure) ∧
    ((∀ emitted ∈ result, ∀ pointer ∈ emitted.pointers, pointer.Pays measure) →
      List.Forall₂ (fun block emitted => measure.size emitted.text ≤ measure.size block.text)
        blocks result) := by
  induction blocks generalizing corpus result with
  | nil =>
      cases hdedup
      exact ⟨iff_of_true rfl fun emitted hemitted => absurd hemitted List.not_mem_nil,
        fun _ => .nil⟩
  | cons block blocks ih =>
      obtain ⟨first, hfirst, next, hnext, rest, hrest, rfl⟩ :=
        dedupFrom_cons_eq_some_iff.mp hdedup
      obtain ⟨hblock, hgrowth⟩ := emit_spec measure hfirst
      obtain ⟨hblocks, hothers⟩ := ih hrest
      rw [foldsPay, Bool.and_eq_true, hfirst]
      dsimp only
      rw [hnext]
      dsimp only
      rw [hblock, hblocks, List.forall_mem_cons]
      exact ⟨Iff.rfl, fun hall => .cons (hgrowth hall.1) (hothers hall.2)⟩

theorem sum_le_of_forall₂
    (htexts : List.Forall₂ (fun block emitted =>
      measure.size emitted.text ≤ measure.size block.text) blocks result) :
    (result.map fun emitted => measure.size emitted.text).sum ≤
      (blocks.map fun block => measure.size block.text).sum := by
  induction htexts with
  | nil => exact Nat.le_refl _
  | cons hfirst _ ih =>
      rw [List.map_cons, List.map_cons, List.sum_cons, List.sum_cons]
      exact Nat.add_le_add hfirst ih

/-- What follows once every fold pays. -/
theorem SavesSpace.of_folds
    (hfolds : ∀ emitted ∈ dedupBlocks tables minLines minChars blocks,
      ∀ pointer ∈ emitted.pointers, pointer.Pays measure)
    (htexts : List.Forall₂ (fun block emitted =>
      measure.size emitted.text ≤ measure.size block.text) blocks
      (dedupBlocks tables minLines minChars blocks)) :
    SavesSpace tables minLines minChars measure blocks := by
  refine ⟨hfolds, htexts, ?_, List.sum_nonneg fun size hsize => ?_⟩
  · exact sum_le_of_forall₂ htexts
  · obtain ⟨pointer, hpointer, rfl⟩ := List.mem_map.mp hsize
    obtain ⟨emitted, hemitted, hpointer⟩ := List.mem_flatMap.mp hpointer
    have hpays : measure.size pointer.text < measure.size (joinLines pointer.span) :=
      hfolds emitted hemitted pointer hpointer
    omega

end

/-- Folding saves space exactly when a conversion fails or each run that is folded is larger
than its pointer. -/
theorem savesSpace_iff (tables : CharTables) (minLines minChars : ℤ) (measure : Measure)
    (blocks : List DedupBlock) : SavesSpace tables minLines minChars measure blocks ↔
      dedupFrom tables minLines minChars .empty blocks = none ∨
        foldsPay tables minLines minChars measure .empty blocks = true := by
  cases hdedup : dedupFrom tables minLines minChars .empty blocks with
  | none =>
      refine iff_of_true (.of_folds ?_ ?_) (.inl rfl)
      · rw [dedupBlocks, hdedup, Option.getD_none]
        intro emitted hemitted pointer hpointer
        obtain ⟨block, -, rfl⟩ := List.mem_map.mp hemitted
        rw [pointers_emitUnchanged] at hpointer
        exact absurd hpointer List.not_mem_nil
      · rw [dedupBlocks, hdedup, Option.getD_none, List.forall₂_map_right_iff,
          List.forall₂_same]
        exact fun block _ => (congrArg measure.size (emitUnchanged_text block)).le
  | some result =>
      have hresult : dedupBlocks tables minLines minChars blocks = result := by
        rw [dedupBlocks, hdedup, Option.getD_some]
      obtain ⟨hfolds, htexts⟩ := foldsPay_iff measure hdedup
      rw [or_iff_right (Option.some_ne_none result), hfolds, ← hresult]
      rw [← hresult] at htexts
      exact ⟨SavesSpace.folds, fun hall => .of_folds hall (htexts hall)⟩

/-- Three lines of forty characters together. -/
def shortBlock (turn : ℤ) : DedupBlock where
  text := joinLines [List.replicate 20 (codePoint 'a'), List.replicate 9 (codePoint 'b'),
    List.replicate 9 (codePoint 'c')]
  turn := turn
  isProtected := false

/-- The pointer to them takes forty-three. -/
theorem short_run_grows :
    ¬SavesSpace asciiTables 3 40 .characters [shortBlock 0, shortBlock 1] := by
  intro hsaves
  have hremoved : removed .characters
      (dedupBlocks asciiTables 3 40 [shortBlock 0, shortBlock 1]) = -3 := by
    decide +kernel
  exact absurd (hremoved ▸ hsaves.removed) (by decide)

end Legroom.CrossTurnDedup
