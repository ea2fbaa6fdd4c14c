import Mathlib.Data.List.Forall2
import Legroom.Transforms.DedupMonotone

/-!
# What a pointer stands for

The lines behind a pointer are in an earlier block, with their numbers shifted.  The
match looks at the value of a number only, so the lines come back as they were if the
number is written the way `str` writes it.
-/

namespace Legroom.CrossTurnDedup

open Python

section

variable (tables : CharTables)

def digitsOf (line : Text) : Text := line.takeWhile (isDecimal tables)

/-- A line with its number increased. -/
def shifted (delta : ℤ) (line : Text) : Text :=
  if delta = 0 then line
  else
    match numAndKey tables line with
    | some ⟨some number, key, _⟩ => decimalText (number + delta).toNat ++ key
    | _ => line

/-- A line is shown again by an earlier block of its turn. -/
def Restores (emitted : List EmittedBlock) (pointer : Pointer) : Prop :=
  ∃ source ∈ emitted, source.turn = pointer.refTurn ∧
    ∃ run : List Text, run.map Piece.line <:+: source.pieces ∧
      run.map (shifted tables pointer.delta) = pointer.span

/-- Nothing is lost of a block: its lines are emitted as they are or restored from the
blocks before it. -/
def Lossless (earlier : List EmittedBlock) (block : DedupBlock) (emitted : EmittedBlock) : Prop :=
  emitted.turn = block.turn ∧ (block.isProtected → emitted.text = block.text) ∧
    emitted.pieces.flatMap Piece.covered = splitLines block.text ∧
      ∀ pointer, .folded pointer ∈ emitted.pieces →
        pointerText tables pointer.span pointer.refTurn pointer.delta = some pointer.text ∧
          Restores tables earlier pointer

/-! ## Runs of lines -/

/-- The digits of a line are those of the line that is shifted, or those of `str`. -/
def writtenAlike (delta : ℤ) (current original : Text) : Bool :=
  match numAndKey tables current with
  | some ⟨some number, _, _⟩ =>
      digitsOf tables current = if delta = 0 then digitsOf tables original else decimalText number
  | _ => true

variable {tables}

theorem numAndKey_spec {line : Text} {found : NumberedLine}
    (hfound : numAndKey tables line = some found) :
    (found.number = none ∧ found.key = line) ∨
      ∃ number, found.number = some number ∧ line = digitsOf tables line ++ found.key := by
  have hsplit : digitsOf tables line ++ line.drop (digitsOf tables line).length = line := by
    rw [digitsOf]
    exact (List.prefix_iff_eq_append.mp (List.takeWhile_prefix _))
  rw [numAndKey, ← digitsOf] at hfound
  split at hfound
  · rename_i separator content hdrop
    split_ifs at hfound with hseparator
    · obtain ⟨number, -, rfl⟩ := Option.map_eq_some_iff.mp hfound
      refine .inr ⟨number, rfl, ?_⟩
      rw [← hdrop]
      exact hsplit.symm
    · cases hfound
      exact .inl ⟨rfl, rfl⟩
  · cases hfound
    exact .inl ⟨rfl, rfl⟩

/-- Two lines that are matched with a shift. -/
def Paired (tables : CharTables) (delta : Option ℤ) (current original : Text) : Prop :=
  ∃ left right, numAndKey tables current = some left ∧ numAndKey tables original = some right ∧
    left.key = right.key ∧
      ((∃ number other : ℕ, left.number = some number ∧ right.number = some other ∧
        delta = some ((number : ℤ) - other)) ∨ current = original ∧ left.number = none)

theorem paired_of_pairShift {current original : Text} {found : Option ℤ}
    (hpair : pairShift tables current original = some (some found)) :
    (∃ shift, found = some shift ∧ Paired tables (some shift) current original) ∨
      found = none ∧ ∀ delta, Paired tables delta current original := by
  simp only [pairShift, bind, Option.bind_eq_some_iff] at hpair
  obtain ⟨left, hleft, right, hright, hpair⟩ := hpair
  have hnumbered : ∀ number other : ℕ, left.number = some number → right.number = some other →
      left.key = right.key → found = some ((number : ℤ) - other) →
        ∃ shift, found = some shift ∧ Paired tables (some shift) current original :=
    fun number other hnumber hother hkeys hfound => ⟨_, hfound, left, right, hleft, hright, hkeys,
      .inl ⟨number, other, hnumber, hother, rfl⟩⟩
  split_ifs at hpair with hkeys hsame
  · cases hpair
  · rw [not_not] at hkeys
    split at hpair
    · rename_i number other hnumber hother
      cases hpair
      exact .inl (hnumbered number other hnumber hother hkeys rfl)
    · rename_i hnumbers
      cases hpair
      have hboth : left = right := Option.some.inj (by rw [← hleft, ← hright, hsame])
      refine .inr ⟨rfl, fun delta => ⟨left, right, hleft, hright, hkeys, .inr ⟨hsame, ?_⟩⟩⟩
      cases hnumber : left.number with
      | none => rfl
      | some number => exact (hnumbers number number hnumber (hboth ▸ hnumber)).elim
  · rw [not_not] at hkeys
    split at hpair
    · rename_i number other hnumber hother
      cases hpair
      exact .inl (hnumbered number other hnumber hother hkeys rfl)
    · cases hpair

variable {lines : List Text}

/-- The run is in the block, and all its lines have the same shift. -/
theorem matchRun_spec {others : List (Option Text)} {delta shift : Option ℤ} {length : ℕ}
    (hrun : matchRun tables lines others delta = some (length, shift)) :
    (∀ known, delta = some known → shift = some known) ∧
      ∃ run rest, others = run.map some ++ rest ∧ run.length = length ∧
        length ≤ lines.length ∧
          ∀ pair ∈ (lines.take length).zip run, Paired tables shift pair.1 pair.2 := by
  have hstop : ∀ (lines : List Text) (others : List (Option Text)) (delta : Option ℤ),
      (∀ known, delta = some known → delta = some known) ∧
        ∃ run rest, others = List.map some run ++ rest ∧ run.length = 0 ∧ 0 ≤ lines.length ∧
          ∀ pair ∈ (lines.take 0).zip run, Paired tables delta pair.1 pair.2 :=
    fun lines others delta => ⟨fun _ hknown => hknown, [], others, rfl, rfl, Nat.zero_le _,
      fun pair hpair => absurd hpair List.not_mem_nil⟩
  induction lines generalizing others delta shift length with
  | nil =>
      cases hrun
      exact hstop [] others delta
  | cons current lines ih =>
      cases others with
      | nil =>
          cases hrun
          exact hstop (current :: lines) [] delta
      | cons other others =>
          cases other with
          | none =>
              cases hrun
              exact hstop (current :: lines) (none :: others) delta
          | some original =>
              simp only [matchRun, bind, Option.bind_eq_some_iff] at hrun
              obtain ⟨found, hpair, hrun⟩ := hrun
              have hgrow : ∀ before rest,
                  matchRun tables lines others before = some rest →
                  some (rest.1 + 1, rest.2) = some (length, shift) →
                  (∀ known, delta = some known → before = some known) →
                  (∀ after, (∀ known, before = some known → after = some known) →
                    Paired tables after current original) →
                  (∀ known, delta = some known → shift = some known) ∧
                    ∃ run rest, some original :: others = List.map some run ++ rest ∧
                      run.length = length ∧ length ≤ (current :: lines).length ∧
                        ∀ pair ∈ ((current :: lines).take length).zip run,
                          Paired tables shift pair.1 pair.2 := by
                rintro before ⟨count, after⟩ hrest hresult hknown hfirst
                cases hresult
                obtain ⟨hkept, run, rest, hsplit, hcount, hbound, hpairs⟩ := ih hrest
                refine ⟨fun known hdelta => hkept known (hknown known hdelta),
                  original :: run, rest, by rw [hsplit]; rfl, by rw [List.length_cons, hcount],
                  Nat.succ_le_succ hbound, ?_⟩
                rw [List.take_succ_cons, List.zip_cons_cons]
                exact List.forall_mem_cons.mpr ⟨hfirst after hkept, hpairs⟩
              match found with
              | none =>
                  cases hrun
                  exact hstop (current :: lines) (some original :: others) delta
              | some none =>
                  obtain ⟨rest, hrest, hresult⟩ := Option.bind_eq_some_iff.mp hrun
                  obtain ⟨_, hcases, _⟩ | ⟨-, hpaired⟩ := paired_of_pairShift hpair
                  · cases hcases
                  · exact hgrow delta rest hrest hresult (fun _ hknown => hknown)
                      fun after _ => hpaired after
              | some (some new) =>
                  simp only at hrun
                  split_ifs at hrun with hother
                  · cases hrun
                    exact hstop (current :: lines) (some original :: others) delta
                  · obtain ⟨rest, hrest, hresult⟩ := Option.bind_eq_some_iff.mp hrun
                    obtain ⟨_, hcases, hpaired⟩ | ⟨hcases, -⟩ := paired_of_pairShift hpair
                    · cases hcases
                      refine hgrow (some new) rest hrest hresult (fun known hdelta => ?_)
                        fun after hafter => hafter new rfl ▸ hpaired
                      subst hdelta
                      rw [show known = new by simpa using hother]
                    · cases hcases

/-- The lines of a run in front of a block, matched with one shift. -/
def RunIn (tables : CharTables) (block : List (Option Text)) (span run : List Text) (delta : ℤ) :
    Prop :=
  (∃ rest, block = run.map some ++ rest) ∧ run.length = span.length ∧
    ∃ shift : Option ℤ, delta = shift.getD 0 ∧ ∀ pair ∈ span.zip run,
      Paired tables shift pair.1 pair.2

/-- What is found is in the corpus. -/
def Match.Valid (tables : CharTables) (corpus : Corpus) (lines : List Text) (found : Match) :
    Prop :=
  found.length ≠ 0 → ∃ block, corpus.blocks[found.block]? = some block ∧
    ∃ run, RunIn tables (block.2.drop found.line) (lines.take found.length) run found.delta

variable {corpus : Corpus} {found : Match}

theorem betterMatch_valid {best : Match} {candidate : ℕ × ℕ}
    (hbest : best.Valid tables corpus lines)
    (hfound : betterMatch tables corpus lines best candidate = some found) :
    found.Valid tables corpus lines := by
  simp only [betterMatch, bind, Option.bind_eq_some_iff] at hfound
  obtain ⟨⟨length, shift⟩, hrun, hfound⟩ := hfound
  simp only [pure, Option.some.injEq] at hfound
  split_ifs at hfound with hlonger
  · subst hfound
    intro hlength
    obtain ⟨-, run, rest, hsplit, hcount, hbound, hpairs⟩ := matchRun_spec hrun
    cases hblock : corpus.blocks[candidate.1]? with
    | none =>
        rw [List.getD_eq_getElem?_getD, List.getElem?_map, hblock] at hsplit
        have hnil : run.map some = [] := (List.append_eq_nil_iff.mp (by simpa using hsplit.symm)).1
        rw [List.map_eq_nil_iff.mp hnil] at hcount
        exact absurd hcount.symm hlength
    | some block =>
        rw [List.getD_eq_getElem?_getD, List.getElem?_map, hblock] at hsplit
        refine ⟨block, rfl, run, ⟨rest, hsplit⟩, ?_, shift, rfl, hpairs⟩
        rw [hcount, List.length_take, Nat.min_eq_left hbound]
  · exact hfound ▸ hbest

theorem longestMatch_valid (hfound : longestMatch tables corpus lines = some found) :
    found.Valid tables corpus lines := by
  simp only [longestMatch, bind, Option.bind_eq_some_iff] at hfound
  obtain ⟨first, -, hfound⟩ := hfound
  have hnone : Match.Valid tables corpus lines ⟨0, 0, 0, 0⟩ := fun hlength => absurd rfl hlength
  generalize (⟨0, 0, 0, 0⟩ : Match) = best at hfound hnone
  generalize corpus.anchors first.key = candidates at hfound
  induction candidates generalizing best with
  | nil =>
      cases hfound
      exact hnone
  | cons candidate candidates ih =>
      rw [List.foldlM_cons] at hfound
      obtain ⟨next, hnext, hfound⟩ := Option.bind_eq_some_iff.mp hfound
      exact ih next (betterMatch_valid hnone hnext) hfound

/-! ## Blocks -/

variable {pieces : List Piece}

theorem prefix_pieces (hcovered : ∀ piece ∈ pieces, piece.covered ≠ []) {rest : List (Option Text)}
    {run : List Text} (hverbatim : pieces.flatMap Piece.verbatim = run.map some ++ rest) :
    run.map Piece.line <+: pieces := by
  induction run generalizing pieces with
  | nil => exact List.nil_prefix
  | cons line run ih =>
      cases pieces with
      | nil => cases hverbatim
      | cons piece pieces =>
          obtain ⟨hpiece, hpieces⟩ := List.forall_mem_cons.mp hcovered
          rw [List.flatMap_cons, List.map_cons, List.cons_append] at hverbatim
          cases piece with
          | line text =>
              obtain ⟨htext, hverbatim⟩ := List.cons.inj hverbatim
              rw [List.map_cons, Option.some.inj htext]
              exact List.cons_prefix_cons.mpr ⟨rfl, ih hpieces hverbatim⟩
          | folded pointer =>
              obtain ⟨first, span, hspan⟩ := List.exists_cons_of_ne_nil hpiece
              rw [Piece.verbatim, show pointer.span = first :: span from hspan] at hverbatim
              cases hverbatim

/-- Consecutive lines that are still shown are consecutive pieces. -/
theorem infix_pieces (hcovered : ∀ piece ∈ pieces, piece.covered ≠ [])
    {before rest : List (Option Text)} {line : Text} {run : List Text}
    (hverbatim : pieces.flatMap Piece.verbatim = before ++ ((line :: run).map some ++ rest)) :
    (line :: run).map Piece.line <:+: pieces := by
  induction pieces generalizing before with
  | nil =>
      have hnil := (List.append_eq_nil_iff.mp hverbatim.symm).2
      cases hnil
  | cons piece pieces ih =>
      cases before with
      | nil => exact (prefix_pieces hcovered hverbatim).isInfix
      | cons entry before =>
          obtain ⟨hpiece, hpieces⟩ := List.forall_mem_cons.mp hcovered
          rw [List.flatMap_cons] at hverbatim
          cases piece with
          | line text =>
              obtain ⟨-, hverbatim⟩ := List.cons.inj hverbatim
              exact (ih hpieces hverbatim).trans (List.suffix_cons _ _).isInfix
          | folded pointer =>
              rw [Piece.verbatim] at hverbatim
              rcases List.append_eq_append_iff.mp hverbatim with
                ⟨front, -, hrest⟩ | ⟨front, hfolded, hrest⟩
              · exact (ih hpieces hrest).trans (List.suffix_cons _ _).isInfix
              · -- What is folded is not shown, so the run does not begin in it.
                cases front with
                | nil =>
                    have hbegins := prefix_pieces hpieces hrest.symm
                    exact hbegins.isInfix.trans (List.suffix_cons _ _).isInfix
                | cons entry front =>
                    obtain ⟨hentry, -⟩ := List.cons.inj hrest
                    have hmem : entry ∈ List.replicate pointer.span.length none := by
                      rw [hfolded]
                      exact List.mem_append_right _ List.mem_cons_self
                    rw [List.eq_of_mem_replicate hmem] at hentry
                    cases hentry

/-- Matched lines come back if the numbers in them are written alike. -/
theorem shifted_of_paired {shift : Option ℤ} {current original : Text}
    (hpaired : Paired tables shift current original)
    (hwritten : writtenAlike tables (shift.getD 0) current original = true) :
    shifted tables (shift.getD 0) original = current := by
  obtain ⟨left, right, hleft, hright, hkeys, hnumbers⟩ := hpaired
  rcases hnumbers with ⟨number, other, hnumber, hother, rfl⟩ | ⟨rfl, hnone⟩
  · have hdigits : digitsOf tables current =
        if (number : ℤ) - other = 0 then digitsOf tables original else decimalText number := by
      rw [writtenAlike, hleft] at hwritten
      obtain ⟨_, key, content⟩ := left
      cases hnumber
      exact of_decide_eq_true hwritten
    rw [Option.getD_some]
    rcases numAndKey_spec hleft with ⟨hnone, -⟩ | ⟨_, -, hcurrent⟩
    · rw [hnumber] at hnone
      cases hnone
    · rcases numAndKey_spec hright with ⟨hnone, -⟩ | ⟨_, -, horiginal⟩
      · rw [hother] at hnone
        cases hnone
      · rw [shifted]
        split_ifs at hdigits ⊢ with hzero
        · rw [hcurrent, hdigits, hkeys]
          exact horiginal
        · have hsum : ((other : ℤ) + (number - other)).toNat = number := by omega
          rw [hright]
          obtain ⟨_, key, _⟩ := right
          cases hother
          dsimp only at hkeys ⊢
          rw [hsum, ← hkeys, ← hdigits]
          exact hcurrent.symm
  · have hsame : right = left := Option.some.inj (by rw [← hleft, ← hright])
    rw [shifted]
    split_ifs
    · rfl
    · rw [hleft]
      obtain ⟨_, key, content⟩ := left
      cases hnone
      rfl

/-! ## Runs -/

variable (tables) (minLines minChars : ℤ)

/-- The numbers in the runs that are folded are written alike. -/
def spansWritten (corpus : Corpus) : ℕ → List Text → Bool
  | fuel + 1, line :: lines =>
      match longestMatch tables corpus (line :: lines) with
      | some found =>
          if found.isFolded minLines minChars (line :: lines) then
            let originals := ((corpus.blocks.map Prod.snd).getD found.block []).drop found.line
            (((line :: lines).take found.length).zip originals).all (fun entry =>
              entry.2.all (writtenAlike tables found.delta entry.1)) &&
                spansWritten corpus fuel ((line :: lines).drop found.length)
          else spansWritten corpus fuel lines
      | none => true
  | _, _ => true

def runsWritten : Corpus → List DedupBlock → Bool
  | _, [] => true
  | corpus, block :: blocks =>
      (block.isProtected ||
        spansWritten tables minLines minChars corpus (splitLines block.text).length
          (splitLines block.text)) &&
      match emit tables minLines minChars corpus block with
      | some emitted =>
          match extend tables corpus emitted with
          | some next => runsWritten next blocks
          | none => true
      | none => true

/-- Nothing is lost of any block. -/
def LosesNothing (blocks : List DedupBlock) : Prop :=
  (dedupBlocks tables minLines minChars blocks).length = blocks.length ∧
    ∀ index block emitted, blocks[index]? = some block →
      (dedupBlocks tables minLines minChars blocks)[index]? = some emitted →
        Lossless tables ((dedupBlocks tables minLines minChars blocks).take index) block emitted

variable {tables minLines minChars}

/-- The corpus has what was emitted. -/
def Tracks (earlier : List EmittedBlock) (corpus : Corpus) : Prop :=
  corpus.blocks = (earlier.map fun emitted => (emitted.turn, emitted.verbatim)) ∧
    ∀ emitted ∈ earlier, ∀ piece ∈ emitted.pieces, piece.covered ≠ []

variable {earlier : List EmittedBlock}

theorem restores_of_written (htracks : Tracks earlier corpus)
    (hfound : longestMatch tables corpus lines = some found) (hlength : found.length ≠ 0)
    (hwritten : ((lines.take found.length).zip
      (((corpus.blocks.map Prod.snd).getD found.block []).drop found.line)).all (fun entry =>
        entry.2.all (writtenAlike tables found.delta entry.1)) = true)
    (pointer : Text) :
    Restores tables earlier ⟨lines.take found.length,
      (corpus.blocks.map Prod.fst).getD found.block 0, found.delta, pointer⟩ := by
  obtain ⟨block, hblock, run, ⟨rest, hsplit⟩, hcount, shift, hdelta, hpairs⟩ :=
    longestMatch_valid hfound hlength
  obtain ⟨hblocks, hcovered⟩ := htracks
  have hrefTurn : (corpus.blocks.map Prod.fst).getD found.block 0 = block.1 := by
    rw [List.getD_eq_getElem?_getD, List.getElem?_map, hblock]
    rfl
  have hothers : (corpus.blocks.map Prod.snd).getD found.block [] = block.2 := by
    rw [List.getD_eq_getElem?_getD, List.getElem?_map, hblock]
    rfl
  rw [hothers, hsplit] at hwritten
  rw [hblocks, List.getElem?_map] at hblock
  obtain ⟨source, hsource, rfl⟩ := Option.map_eq_some_iff.mp hblock
  have hmem := List.mem_of_getElem? hsource
  refine ⟨source, hmem, hrefTurn.symm, run, ?_, ?_⟩
  · cases run with
    | nil => exact ⟨[], source.pieces, rfl⟩
    | cons line run =>
        have hverbatim : source.verbatim =
            source.verbatim.take found.line ++ ((line :: run).map some ++ rest) := by
          rw [← hsplit]
          exact (List.take_append_drop found.line source.verbatim).symm
        exact infix_pieces (hcovered source hmem) hverbatim
  · have hlines : List.Forall₂ (fun current original =>
        current = shifted tables found.delta original) (lines.take found.length) run := by
      refine List.forall₂_iff_zip.mpr ⟨hcount.symm, fun {current original} hpair => ?_⟩
      rw [hdelta]
      refine (shifted_of_paired (hpairs _ hpair) ?_).symm
      rw [← hdelta]
      refine List.all_eq_true.mp hwritten (current, some original) ?_
      rw [← List.append_nil (lines.take found.length), List.zip_append (by simpa using hcount.symm),
        List.zip_map_right]
      exact List.mem_append_left _ (List.mem_map_of_mem (f := Prod.map id some) hpair)
    rw [← List.forall₂_map_right_iff, List.forall₂_eq_eq_eq] at hlines
    exact hlines.symm

theorem pieces_lossless (htracks : Tracks earlier corpus) {fuel : ℕ}
    (hscan : scanLines tables minLines minChars corpus fuel lines = some pieces)
    (hwritten : spansWritten tables minLines minChars corpus fuel lines = true) :
    ∀ pointer, .folded pointer ∈ pieces →
      pointerText tables pointer.span pointer.refTurn pointer.delta = some pointer.text ∧
        Restores tables earlier pointer := by
  induction fuel generalizing lines pieces with
  | zero =>
      cases hscan
      exact fun pointer hpointer => absurd hpointer List.not_mem_nil
  | succ fuel ih =>
      cases lines with
      | nil =>
          cases hscan
          exact fun pointer hpointer => absurd hpointer List.not_mem_nil
      | cons line lines =>
          obtain ⟨found, hfound, hcases⟩ := scanLines_cases hscan
          rw [spansWritten, hfound] at hwritten
          dsimp only at hwritten
          rcases hcases with ⟨hkept, rest, hrest, rfl⟩ | ⟨hfold, text, htext, rest, hrest, rfl⟩
          · rw [hkept] at hwritten
            intro pointer hpointer
            rcases List.mem_cons.mp hpointer with heq | hpointer
            · cases heq
            · exact ih hrest hwritten pointer hpointer
          · rw [if_pos hfold, Bool.and_eq_true] at hwritten
            obtain ⟨hspan, hwritten⟩ := hwritten
            intro pointer hpointer
            rcases List.mem_cons.mp hpointer with heq | hpointer
            · cases heq
              have hlength : found.length ≠ 0 := (of_decide_eq_true hfold).1
              exact ⟨htext, restores_of_written htracks hfound hlength hspan text⟩
            · exact ih hrest hwritten pointer hpointer

theorem lossless_emitUnchanged (block : DedupBlock) :
    Lossless tables earlier block (emitUnchanged block) := by
  refine ⟨rfl, fun _ => emitUnchanged_text block, ?_, fun pointer hpointer => ?_⟩
  · rw [emitUnchanged, List.flatMap_map]
    exact List.flatMap_singleton' _
  · obtain ⟨line, -, hline⟩ := List.mem_map.mp hpointer
    cases hline

variable {emitted : EmittedBlock}

/-- One block after others. -/
theorem emit_lossless {block : DedupBlock} (htracks : Tracks earlier corpus)
    (hemit : emit tables minLines minChars corpus block = some emitted)
    (hwritten : (block.isProtected || spansWritten tables minLines minChars corpus
      (splitLines block.text).length (splitLines block.text)) = true) :
    Lossless tables earlier block emitted ∧ ∀ piece ∈ emitted.pieces, piece.covered ≠ [] := by
  rw [emit] at hemit
  split_ifs at hemit with hprotected
  · cases hemit
    refine ⟨lossless_emitUnchanged block, fun piece hpiece => ?_⟩
    obtain ⟨line, -, rfl⟩ := List.mem_map.mp hpiece
    exact List.cons_ne_nil line []
  · obtain ⟨pieces, hscan, rfl⟩ := Option.map_eq_some_iff.mp hemit
    obtain ⟨hcovered, hpieces⟩ := scanLines_covers hscan (Nat.le_refl _)
      fun line hline => newline_not_mem_splitLines hline
    rw [Bool.eq_false_iff.mpr hprotected, Bool.false_or] at hwritten
    exact ⟨⟨rfl, fun hmarked => absurd hmarked hprotected, hcovered,
      pieces_lossless htracks hscan hwritten⟩, fun piece hpiece => (hpieces piece hpiece).1⟩

theorem Tracks.extend {next : Corpus} (htracks : Tracks earlier corpus)
    (hcovered : ∀ piece ∈ emitted.pieces, piece.covered ≠ [])
    (hnext : CrossTurnDedup.extend tables corpus emitted = some next) :
    Tracks (earlier ++ [emitted]) next := by
  obtain ⟨anchors, -, rfl⟩ := Option.map_eq_some_iff.mp hnext
  refine ⟨by rw [htracks.1, List.map_append]; rfl, fun block hblock => ?_⟩
  rcases List.mem_append.mp hblock with hblock | hblock
  · exact htracks.2 block hblock
  · rw [List.mem_singleton.mp hblock]
    exact hcovered

/-- A run after earlier blocks. -/
theorem dedupFrom_lossless {blocks : List DedupBlock} {result : List EmittedBlock}
    (htracks : Tracks earlier corpus)
    (hdedup : dedupFrom tables minLines minChars corpus blocks = some result)
    (hwritten : runsWritten tables minLines minChars corpus blocks = true) :
    result.length = blocks.length ∧ ∀ index block emitted, blocks[index]? = some block →
      result[index]? = some emitted → Lossless tables (earlier ++ result.take index) block
        emitted := by
  induction blocks generalizing earlier corpus result with
  | nil =>
      cases hdedup
      exact ⟨rfl, fun index block emitted hblock => by cases hblock⟩
  | cons block blocks ih =>
      obtain ⟨first, hfirst, next, hnext, rest, hrest, rfl⟩ :=
        dedupFrom_cons_eq_some_iff.mp hdedup
      rw [runsWritten, Bool.and_eq_true, hfirst] at hwritten
      obtain ⟨hspans, hwritten⟩ := hwritten
      dsimp only at hwritten
      rw [hnext] at hwritten
      obtain ⟨hlossless, hcovered⟩ := emit_lossless htracks hfirst hspans
      obtain ⟨hlength, hblocks⟩ := ih (htracks.extend hcovered hnext) hrest hwritten
      refine ⟨congrArg (· + 1) hlength, fun index other emitted hother hemitted => ?_⟩
      cases index with
      | zero =>
          cases hother
          cases hemitted
          rw [List.take_zero, List.append_nil]
          exact hlossless
      | succ index =>
          rw [List.getElem?_cons_succ] at hother hemitted
          rw [List.take_succ_cons, ← List.singleton_append, ← List.append_assoc]
          exact hblocks index other emitted hother hemitted

theorem losesNothing_of_runsWritten (tables : CharTables) (minLines minChars : ℤ)
    (blocks : List DedupBlock)
    (hwritten : runsWritten tables minLines minChars .empty blocks = true) :
    LosesNothing tables minLines minChars blocks := by
  cases hdedup : dedupFrom tables minLines minChars .empty blocks with
  | none =>
      rw [LosesNothing, dedupBlocks, hdedup, Option.getD_none]
      refine ⟨List.length_map _, fun index block emitted hblock hemitted => ?_⟩
      rw [List.getElem?_map, hblock] at hemitted
      cases hemitted
      exact lossless_emitUnchanged block
  | some result =>
      have hrun := dedupFrom_lossless ⟨rfl, fun _ hmem => absurd hmem List.not_mem_nil⟩
        hdedup hwritten
      rw [LosesNothing, dedupBlocks, hdedup, Option.getD_some]
      exact hrun

end

/-- The lines of a file, numbered from seven. -/
def paddedBlock : DedupBlock :=
  ⟨text "007:alpha beta gamma delta\n008:alpha beta gamma epsilon\n009:alpha beta gamma zeta", 0,
    false⟩

def unpaddedBlock : DedupBlock :=
  ⟨text "7:alpha beta gamma delta\n8:alpha beta gamma epsilon\n9:alpha beta gamma zeta", 1, false⟩

/-- The block that numbers the lines without zeros is not restored with zeros. -/
theorem zeros_not_restored : ¬LosesNothing asciiTables 3 40 [paddedBlock, unpaddedBlock] := by
  have hresult : dedupBlocks asciiTables 3 40 [paddedBlock, unpaddedBlock] =
      [emitUnchanged paddedBlock, ⟨1, false, [.folded ⟨splitLines unpaddedBlock.text, 0, 0,
        text "[↑3L same as msg 0: 'alpha beta gamma ...']"⟩]⟩] := by
    decide +kernel
  rintro ⟨-, hblocks⟩
  rw [hresult] at hblocks
  obtain ⟨-, -, -, hfolded⟩ := hblocks 1 unpaddedBlock _ rfl rfl
  obtain ⟨-, source, hsource, -, run, hinfix, hrun⟩ := hfolded _ List.mem_cons_self
  rw [List.mem_singleton.mp hsource] at hinfix
  -- Without a shift the lines come back as they are in the source.
  have hsame : shifted asciiTables 0 = id := funext fun line => if_pos rfl
  rw [hsame, List.map_id] at hrun
  have hshown := hinfix.subset (List.mem_map_of_mem (f := Piece.line)
    (show text "7:alpha beta gamma delta" ∈ run by rw [hrun]; decide +kernel))
  exact absurd hshown (by decide +kernel)

/-- The lines of a file that has two more in front. -/
def movedBlock : DedupBlock :=
  ⟨text "9:alpha beta gamma delta\n10:alpha beta gamma epsilon\n11:alpha beta gamma zeta", 2, false⟩

theorem losesNothing_moved : runsWritten asciiTables 3 40 .empty [unpaddedBlock, movedBlock] = true ∧
    LosesNothing asciiTables 3 40 [unpaddedBlock, movedBlock] :=
  ⟨by decide +kernel, losesNothing_of_runsWritten asciiTables 3 40 [unpaddedBlock, movedBlock]
    (by decide +kernel)⟩

end Legroom.CrossTurnDedup
