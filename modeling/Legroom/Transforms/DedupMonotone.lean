import Legroom.Transforms.CrossTurnDedup

/-!
# Earlier blocks stay as they are

What is emitted for a block depends on the blocks before it, unless a conversion fails
somewhere: then nothing is replaced at all.
-/

namespace Legroom.CrossTurnDedup

open Python

/-- A pointer that writes what it replaces. -/
def Piece.Unchanged : Piece → Prop
  | .line _ => True
  | .folded pointer => pointer.span = [pointer.text]

section

variable {tables : CharTables} {minLines minChars : ℤ}

/-! ## Pieces -/

theorem newline_not_mem_intText {value : ℤ} {digits : Text}
    (hdigits : intText value = some digits) : newline ∉ digits := by
  rw [intText] at hdigits
  split_ifs at hdigits
  · cases hdigits
    intro hmem
    rcases List.mem_cons.mp hmem with heq | hmem
    · exact absurd heq (by decide)
    · exact newline_not_mem_decimalText _ hmem
  · cases hdigits
    exact newline_not_mem_decimalText _

theorem newline_not_mem_signedText {value : ℤ} {digits : Text}
    (hdigits : signedText value = some digits) : newline ∉ digits := by
  obtain ⟨plain, hplain, rfl⟩ := Option.map_eq_some_iff.mp hdigits
  split_ifs
  · exact newline_not_mem_intText hplain
  · intro hmem
    rcases List.mem_cons.mp hmem with heq | hmem
    · exact absurd heq (by decide)
    · exact newline_not_mem_intText hplain hmem

theorem newline_not_mem_shiftText {delta : ℤ} {shift : Text}
    (hshift : shiftText delta = some shift) : newline ∉ shift := by
  rw [shiftText] at hshift
  split_ifs at hshift
  · cases hshift
    exact List.not_mem_nil
  · obtain ⟨signed, hsigned, rfl⟩ := Option.map_eq_some_iff.mp hshift
    have hblank : newline ∉ text " " := by decide
    have hletter : newline ∉ text "L" := by decide
    simp only [List.mem_append, not_or]
    exact ⟨⟨hblank, newline_not_mem_signedText hsigned⟩, hletter⟩

/-- A pointer is one line. -/
theorem newline_not_mem_pointerText {span : List Text} {refTurn delta : ℤ} {pointer : Text}
    (hpointer : pointerText tables span refTurn delta = some pointer) : newline ∉ pointer := by
  simp only [pointerText, bind, Option.bind_eq_some_iff] at hpointer
  obtain ⟨anchor, -, count, hcount, turn, hturn, shift, hshift, hpointer⟩ := hpointer
  cases hpointer
  have hopen : newline ∉ text "[↑" := by decide
  have hsame : newline ∉ text "L same as msg " := by decide
  have hcolon : newline ∉ text ": " := by decide
  have hclose : newline ∉ text "]" := by decide
  simp only [List.mem_append, not_or]
  exact ⟨⟨⟨⟨⟨⟨⟨hopen, newline_not_mem_intText hcount⟩, hsame⟩,
    newline_not_mem_intText hturn⟩, newline_not_mem_shiftText hshift⟩, hcolon⟩, newline_not_mem_repr tables anchor⟩, hclose⟩

variable {corpus : Corpus} {pieces : List Piece}

/-- The pieces of some lines stand for all of them, and each is one line. -/
theorem scanLines_covers {fuel : ℕ} {lines : List Text}
    (hscan : scanLines tables minLines minChars corpus fuel lines = some pieces)
    (hfuel : lines.length ≤ fuel) (hlines : ∀ line ∈ lines, newline ∉ line) :
    pieces.flatMap Piece.covered = lines ∧
      ∀ piece ∈ pieces, piece.covered ≠ [] ∧ newline ∉ piece.text := by
  induction fuel generalizing lines pieces with
  | zero =>
      rw [List.eq_nil_of_length_eq_zero (Nat.le_zero.mp hfuel)] at hscan ⊢
      cases hscan
      exact ⟨rfl, fun piece hpiece => absurd hpiece List.not_mem_nil⟩
  | succ fuel ih =>
      cases lines with
      | nil =>
          cases hscan
          exact ⟨rfl, fun piece hpiece => absurd hpiece List.not_mem_nil⟩
      | cons line lines =>
          obtain ⟨hline, htail⟩ := List.forall_mem_cons.mp hlines
          obtain ⟨found, -, ⟨-, rest, hrest, rfl⟩ | ⟨hfold, pointer, hpointer, rest, hrest, rfl⟩⟩ :=
            scanLines_cases hscan
          · obtain ⟨hcovered, hpieces⟩ := ih hrest (Nat.le_of_succ_le_succ hfuel) htail
            refine ⟨by rw [List.flatMap_cons, hcovered]; rfl, ?_⟩
            exact List.forall_mem_cons.mpr ⟨⟨List.cons_ne_nil _ _, hline⟩, hpieces⟩
          · have hlength : found.length ≠ 0 := (of_decide_eq_true hfold).1
            have hshorter : ((line :: lines).drop found.length).length ≤ fuel := by
              rw [List.length_drop]
              omega
            obtain ⟨hcovered, hpieces⟩ := ih hrest hshorter fun other hother =>
              hlines other (List.mem_of_mem_drop hother)
            refine ⟨?_, List.forall_mem_cons.mpr ⟨⟨?_, newline_not_mem_pointerText hpointer⟩,
              hpieces⟩⟩
            · rw [List.flatMap_cons, hcovered]
              exact List.take_append_drop found.length (line :: lines)
            · obtain ⟨length, hsucc⟩ := Nat.exists_eq_succ_of_ne_zero hlength
              rw [Piece.covered, hsucc]
              exact List.cons_ne_nil _ _

/-- Pieces whose texts are the lines they stand for are unchanged. -/
theorem unchanged_of_texts (hcovered : ∀ piece ∈ pieces, piece.covered ≠ [])
    (htexts : pieces.map Piece.text = pieces.flatMap Piece.covered) :
    ∀ piece ∈ pieces, piece.Unchanged := by
  have hlengths : ∀ rest : List Piece, (∀ piece ∈ rest, piece.covered ≠ []) →
      rest.length ≤ (rest.flatMap Piece.covered).length := by
    intro rest hrest
    induction rest with
    | nil => exact Nat.le_refl 0
    | cons piece rest ih =>
        obtain ⟨hpiece, hrest⟩ := List.forall_mem_cons.mp hrest
        have hpositive := List.length_pos_of_ne_nil hpiece
        have := ih hrest
        rw [List.flatMap_cons, List.length_append, List.length_cons]
        omega
  induction pieces with
  | nil => exact fun piece hpiece => absurd hpiece List.not_mem_nil
  | cons piece pieces ih =>
      obtain ⟨hpiece, hpieces⟩ := List.forall_mem_cons.mp hcovered
      rw [List.map_cons, List.flatMap_cons] at htexts
      -- More lines than pieces behind the first would leave too few for the others.
      have hsingle : piece.covered.length = 1 := by
        have htotal := congrArg List.length htexts
        rw [List.length_cons, List.length_map, List.length_append] at htotal
        have hrest := hlengths pieces hpieces
        have hpositive := List.length_pos_of_ne_nil hpiece
        omega
      obtain ⟨line, hline⟩ := List.length_eq_one_iff.mp hsingle
      rw [hline, List.singleton_append] at htexts
      obtain ⟨htext, hrest⟩ := List.cons.inj htexts
      refine List.forall_mem_cons.mpr ⟨?_, ih hpieces hrest⟩
      cases piece with
      | line text => trivial
      | folded pointer =>
          rw [Piece.Unchanged, ← show Piece.text (.folded pointer) = pointer.text from rfl, htext]
          exact hline

theorem texts_of_unchanged (hunchanged : ∀ piece ∈ pieces, piece.Unchanged) :
    pieces.map Piece.text = pieces.flatMap Piece.covered := by
  induction pieces with
  | nil => rfl
  | cons piece pieces ih =>
      obtain ⟨hpiece, hpieces⟩ := List.forall_mem_cons.mp hunchanged
      rw [List.map_cons, List.flatMap_cons, ih hpieces]
      cases piece with
      | line text => rfl
      | folded pointer =>
          rw [Piece.covered, hpiece]
          rfl

theorem emitUnchanged_text (block : DedupBlock) : (emitUnchanged block).text = block.text := by
  rw [EmittedBlock.text, emitUnchanged, List.map_map]
  exact (congrArg joinLines (List.map_id _)).trans (joinLines_splitLines block.text)

/-- The text of a block changes exactly when a piece does. -/
theorem emit_text_iff {block : DedupBlock} {emitted : EmittedBlock}
    (hemit : emit tables minLines minChars corpus block = some emitted) :
    emitted.text = block.text ↔ ∀ piece ∈ emitted.pieces, piece.Unchanged := by
  rw [emit] at hemit
  split_ifs at hemit
  · rw [← Option.some.inj hemit]
    refine iff_of_true (emitUnchanged_text block) fun piece hpiece => ?_
    obtain ⟨line, -, rfl⟩ := List.mem_map.mp hpiece
    trivial
  · obtain ⟨pieces, hscan, rfl⟩ := Option.map_eq_some_iff.mp hemit
    obtain ⟨hcovered, hpieces⟩ := scanLines_covers hscan (Nat.le_refl _)
      fun line hline => newline_not_mem_splitLines hline
    constructor
    · intro htext
      refine unchanged_of_texts (fun piece hpiece => (hpieces piece hpiece).1) ?_
      have hne : pieces.map Piece.text ≠ [] := by
        rintro hnil
        rw [List.map_eq_nil_iff.mp hnil] at hcovered
        exact List.splitOn_ne_nil newline block.text hcovered.symm
      have hlines : ∀ line ∈ pieces.map Piece.text, newline ∉ line := by
        intro line hline
        obtain ⟨piece, hpiece, rfl⟩ := List.mem_map.mp hline
        exact (hpieces piece hpiece).2
      rw [hcovered, ← htext, EmittedBlock.text, splitLines_joinLines hlines hne]
    · intro hunchanged
      rw [EmittedBlock.text, texts_of_unchanged hunchanged, hcovered, joinLines_splitLines]

/-! ## Runs -/

variable (tables minLines minChars) in
/-- Up to the first failure nothing is replaced by another text. -/
def Quiet : Corpus → List DedupBlock → Prop
  | _, [] => True
  | corpus, block :: blocks => ∀ emitted, emit tables minLines minChars corpus block = some emitted →
      ∀ next, extend tables corpus emitted = some next →
        (∀ piece ∈ emitted.pieces, piece.Unchanged) ∧ Quiet next blocks

variable {blocks : List DedupBlock}
variable {emitted : List EmittedBlock}

theorem dedupFrom_cons_eq_some_iff {block : DedupBlock} :
    dedupFrom tables minLines minChars corpus (block :: blocks) = some emitted ↔
      ∃ first, emit tables minLines minChars corpus block = some first ∧
        ∃ next, extend tables corpus first = some next ∧
          ∃ rest, dedupFrom tables minLines minChars next blocks = some rest ∧
            emitted = first :: rest := by
  simp only [dedupFrom, bind, Option.bind_eq_some_iff, pure, Option.some.injEq]
  constructor
  · rintro ⟨first, hfirst, next, hnext, rest, hrest, rfl⟩
    exact ⟨first, hfirst, next, hnext, rest, hrest, rfl⟩
  · rintro ⟨first, hfirst, next, hnext, rest, hrest, rfl⟩
    exact ⟨first, hfirst, next, hnext, rest, hrest, rfl⟩

/-- Fewer blocks give fewer emitted blocks. -/
theorem dedupFrom_take (hdedup : dedupFrom tables minLines minChars corpus blocks = some emitted)
    (count : ℕ) :
    dedupFrom tables minLines minChars corpus (blocks.take count) = some (emitted.take count) := by
  induction blocks generalizing corpus emitted count with
  | nil =>
      cases hdedup
      rw [List.take_nil, List.take_nil]
      rfl
  | cons block blocks ih =>
      obtain ⟨first, hfirst, next, hnext, rest, hrest, rfl⟩ :=
        dedupFrom_cons_eq_some_iff.mp hdedup
      cases count with
      | zero => rfl
      | succ count =>
          exact dedupFrom_cons_eq_some_iff.mpr
            ⟨first, hfirst, next, hnext, rest.take count, ih hrest count, rfl⟩

/-- Quiet blocks keep their texts as far as the run gets. -/
theorem quiet_iff :
    Quiet tables minLines minChars corpus blocks ↔ ∀ count emitted,
      dedupFrom tables minLines minChars corpus (blocks.take count) = some emitted →
        emitted.map EmittedBlock.text = (blocks.take count).map DedupBlock.text := by
  induction blocks generalizing corpus with
  | nil =>
      refine iff_of_true trivial fun count emitted hdedup => ?_
      rw [List.take_nil] at hdedup ⊢
      cases hdedup
      rfl
  | cons block blocks ih =>
      rw [Quiet]
      constructor
      · intro hquiet count emitted hdedup
        cases count with
        | zero =>
            cases hdedup
            rfl
        | succ count =>
            obtain ⟨first, hfirst, next, hnext, rest, hrest, rfl⟩ :=
              dedupFrom_cons_eq_some_iff.mp hdedup
            obtain ⟨hpieces, hblocks⟩ := hquiet first hfirst next hnext
            rw [List.map_cons, List.take_succ_cons, List.map_cons,
              (emit_text_iff hfirst).mpr hpieces, ih.mp hblocks count rest hrest]
      · intro htexts first hfirst next hnext
        have hstep : ∀ count rest,
            dedupFrom tables minLines minChars next (blocks.take count) = some rest →
              first.text = block.text ∧
                rest.map EmittedBlock.text = (blocks.take count).map DedupBlock.text := by
          intro count rest hrest
          have hall := htexts (count + 1) (first :: rest)
            (dedupFrom_cons_eq_some_iff.mpr ⟨first, hfirst, next, hnext, rest, hrest, rfl⟩)
          exact List.cons.inj hall
        refine ⟨(emit_text_iff hfirst).mp (hstep 0 [] rfl).1, ih.mpr fun count rest hrest => ?_⟩
        exact (hstep count rest hrest).2

variable (tables minLines minChars) in
/-- One more block changes no text that was emitted before. -/
def PrefixMonotonic (blocks : List DedupBlock) : Prop :=
  ∀ count, (dedupBlocks tables minLines minChars (blocks.take count)).map EmittedBlock.text =
    ((dedupBlocks tables minLines minChars blocks).map EmittedBlock.text).take count

end

def repeatedBlock (turn : ℤ) : DedupBlock :=
  ⟨text "first line of a file\nsecond line of a file\nthird line of a file", turn, false⟩

/-- A line number of 4301 digits. -/
def overlongBlock (turn : ℤ) : DedupBlock :=
  ⟨List.replicate (maxStrDigits + 1) (codePoint '1') ++ text ":x", turn, false⟩

end Legroom.CrossTurnDedup
