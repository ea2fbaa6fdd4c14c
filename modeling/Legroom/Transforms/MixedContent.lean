import Legroom.Transforms.LosslessSections

/-!
# Mixed content

A content is cut into sections of one kind each: fenced code, blocks of JSON, lines of a
search, and text.  Every line of the content is in the text of a section, is a fence, or is
blank.
-/

namespace Legroom.MixedContent

open Python LosslessRouter

/-- A section with its place in the content. -/
structure PlacedSection extends ContentSection where
  startLine : ℕ
  endLine : ℕ
  isCodeFence : Bool
deriving DecidableEq

/-- The classes of the patterns, where `\s` is that of ASCII as far as ASCII goes. -/
structure LineTables where
  chars : CharTables
  patterns : Ccr.PatternTables
  isSpace_ascii : ∀ char < 0x80, chars.isSpace char = asciiTables.isSpace char

def asciiLineTables : LineTables where
  chars := asciiTables
  patterns := Ccr.asciiPatternTables
  isSpace_ascii := fun _ _ => rfl

section

variable (tables : LineTables)

/-! ## Sections -/

/-- The lines of a block of JSON that begins with the first line.  They are never blank, for
that line has a bracket. -/
def leadingJson (line : Text) (rest : List Text) : Option (List Text) :=
  if startsJson tables.chars line then
    (extractJsonBlock .initial (line :: rest)).map Prod.fst
  else none

/-- The section that begins at a line, if it is not blank, and the line to go on from. -/
def sectionAt (index : ℕ) (line : Text) (rest : List Text) : Option PlacedSection × ℕ :=
  match fenceLanguage tables.chars tables.patterns line with
  | some word =>
      let codeLines := rest.takeWhile (!startsFence ·)
      let stop := index + 1 + codeLines.length
      (some {
        content := joinLines codeLines
        contentType := .sourceCode
        language := some (if word = [] then text "unknown" else word)
        startLine := index
        endLine := stop
        isCodeFence := true }, stop + 1)
  | none =>
      let plain := fun contentType (taken : List Text) =>
        ({ content := joinLines taken, contentType, language := none, startLine := index,
           endLine := index + taken.length - 1, isCodeFence := false } : PlacedSection)
      match leadingJson tables line rest with
      | some block => (some (plain .jsonArray block), index + block.length)
      | none =>
          if isSearchResult tables.chars line then
            let searchLines := (line :: rest).takeWhile (isSearchResult tables.chars)
            (some (plain .searchResults searchLines), index + searchLines.length)
          else
            let textLines := line :: rest.takeWhile (continuesText tables.chars tables.patterns)
            (if isBlank tables.chars (joinLines textLines) then none
              else some (plain .plainText textLines), index + textLines.length)

/-- The sections from a line on, behind which there are no more than `fuel` lines. -/
def sectionsFrom (lines : List Text) : ℕ → ℕ → List PlacedSection
  | 0, _ => []
  | fuel + 1, index =>
      match lines.drop index with
      | [] => []
      | line :: rest =>
          let (found, next) := sectionAt tables index line rest
          found.toList ++ sectionsFrom lines fuel next

def splitIntoSections (content : Text) : List PlacedSection :=
  let lines := splitLines content
  sectionsFrom tables lines lines.length 0

variable {tables}

theorem isPrefix_of_leadingJson {line : Text} {rest block : List Text}
    (hblock : leadingJson tables line rest = some block) : block <+: line :: rest ∧ block ≠ [] := by
  rw [leadingJson] at hblock
  split_ifs at hblock
  obtain ⟨⟨block, behind⟩, hread, rfl⟩ := Option.map_eq_some_iff.mp hblock
  obtain ⟨hlines, hne⟩ := extractJsonBlock_eq hread
  exact ⟨⟨behind, hlines.symm⟩, hne⟩

theorem drop_length_takeWhile (accepts : Text → Bool) (lines : List Text) :
    lines.drop (lines.takeWhile accepts).length = lines.dropWhile accepts :=
  calc
    _ = (lines.takeWhile accepts ++ lines.dropWhile accepts).drop
        (lines.takeWhile accepts).length := by rw [List.takeWhile_append_dropWhile]
    _ = lines.dropWhile accepts := List.drop_left

/-- Without their places the sections are those that the router folds. -/
theorem toContentSection_sectionsFrom (lines : List Text) (fuel index : ℕ) :
    (sectionsFrom tables lines fuel index).map PlacedSection.toContentSection =
      splitFrom tables.chars tables.patterns fuel (lines.drop index) := by
  induction fuel generalizing index with
  | zero => rfl
  | succ fuel ih =>
      cases hlines : lines.drop index with
      | nil => rw [sectionsFrom, hlines, splitFrom_nil]; rfl
      | cons line rest =>
          have hdropped (count : ℕ) : lines.drop (index + count) = (line :: rest).drop count := by
            rw [← List.drop_drop, hlines]
          rw [sectionsFrom, hlines, splitFrom]
          dsimp only
          rw [List.map_append, ih, sectionAt]
          cases hfence : fenceLanguage tables.chars tables.patterns line with
          | some word =>
              dsimp only
              rw [Nat.add_assoc index, Nat.add_assoc index, hdropped, Nat.add_comm 1,
                List.drop_succ_cons, ← List.drop_drop, drop_length_takeWhile]
              rfl
          | none =>
              dsimp only
              rw [leadingJson]
              cases hjson : if startsJson tables.chars line then
                  extractJsonBlock .initial (line :: rest) else none with
              | some found =>
                  obtain ⟨block, behind⟩ := found
                  split_ifs at hjson with hstarts
                  have hbehind : (line :: rest).drop block.length = behind := by
                    rw [(extractJsonBlock_eq hjson).1, List.drop_left]
                  rw [if_pos hstarts, hjson]
                  dsimp only [Option.map_some]
                  rw [hdropped, hbehind]
                  rfl
              | none =>
                  have hnone : (if startsJson tables.chars line then
                      (extractJsonBlock .initial (line :: rest)).map Prod.fst
                    else none) = none := by
                    split_ifs at hjson ⊢
                    · rw [hjson]
                      rfl
                    · rfl
                  rw [hnone]
                  dsimp only
                  cases hsearch : isSearchResult tables.chars line with
                  | true =>
                      rw [if_pos rfl, if_pos rfl, hdropped, List.takeWhile_cons_of_pos hsearch,
                        List.length_cons, List.drop_succ_cons, drop_length_takeWhile]
                      rfl
                  | false =>
                      rw [if_neg Bool.false_ne_true, if_neg Bool.false_ne_true, hdropped,
                        List.length_cons, List.drop_succ_cons, drop_length_takeWhile]
                      split_ifs
                      · rfl
                      · rfl

theorem toContentSection_splitIntoSections (content : Text) :
    (splitIntoSections tables content).map PlacedSection.toContentSection =
      LosslessRouter.splitIntoSections tables.chars tables.patterns content :=
  toContentSection_sectionsFrom (splitLines content) (splitLines content).length 0

end

/-! ## Accounts -/

section

variable (tables : LineTables)

namespace PlacedSection

/-- The first line of the text. -/
def textStart (found : PlacedSection) : ℕ :=
  if found.isCodeFence then found.startLine + 1 else found.startLine

/-- The line behind the text. -/
def textStop (found : PlacedSection) : ℕ :=
  if found.isCodeFence then found.endLine else found.endLine + 1

/-- The text is a run of the lines. -/
def HasText (found : PlacedSection) (lines : List Text) : Prop :=
  found.textStop ≤ lines.length ∧
    found.content =
      joinLines ((lines.drop found.textStart).take (found.textStop - found.textStart))

end PlacedSection

/-- Where a line has gone. -/
inductive Accounted (sections : List PlacedSection) (place : ℕ) (line : Text) : Prop
  | text {found : PlacedSection} (hfound : found ∈ sections) (hstart : found.textStart ≤ place)
      (hstop : place < found.textStop)
  | opening {found : PlacedSection} (hfound : found ∈ sections)
      (hfence : found.isCodeFence = true) (hplace : place = found.startLine)
      (hline : (fenceLanguage tables.chars tables.patterns line).isSome)
  | closing {found : PlacedSection} (hfound : found ∈ sections)
      (hfence : found.isCodeFence = true) (hplace : place = found.endLine)
      (hline : startsFence line = true)
  | blank (hline : ∀ char ∈ line, tables.chars.isSpace char = true)

/-- Every line from an index on is accounted for by sections one behind the other. -/
structure Accounts (lines : List Text) (index : ℕ) (sections : List PlacedSection) : Prop where
  ordered : ∀ found ∈ sections, index ≤ found.startLine ∧ found.startLine ≤ found.endLine
  increasing : sections.Pairwise fun earlier later => earlier.endLine < later.startLine
  hasText : ∀ found ∈ sections, found.HasText lines
  accounted : ∀ place line, index ≤ place → lines[place]? = some line →
    Accounted tables sections place line

/-- What is known of the section that begins at a line. -/
structure SectionStep (lines : List Text) (index next : ℕ) (found : Option PlacedSection) :
    Prop where
  advances : index < next
  placed : ∀ part ∈ found,
    part.startLine = index ∧ part.startLine ≤ part.endLine ∧ part.endLine < next
  hasText : ∀ part ∈ found, part.HasText lines
  accounted : ∀ place line, index ≤ place → place < next → lines[place]? = some line →
    Accounted tables found.toList place line

variable {tables}
variable {lines behind : List Text} {index : ℕ}
variable {taken : List Text} {part : PlacedSection}

/-- A run of lines is the text of its section. -/
theorem sectionStep_of_run (hlines : lines.drop index = taken ++ behind) (hne : taken ≠ [])
    (hcontent : part.content = joinLines taken) (hstart : part.startLine = index)
    (hend : part.endLine = index + taken.length - 1) (hfence : part.isCodeFence = false) :
    SectionStep tables lines index (index + taken.length) (some part) := by
  have hpositive := List.length_pos_iff.mpr hne
  have hlength := congrArg List.length hlines
  rw [List.length_drop, List.length_append] at hlength
  have htextStart : part.textStart = index := by
    rw [PlacedSection.textStart, hfence, if_neg Bool.false_ne_true, hstart]
  have htextStop : part.textStop = index + taken.length := by
    rw [PlacedSection.textStop, hfence, if_neg Bool.false_ne_true, hend]
    omega
  refine ⟨by omega, ?_, ?_, fun place line hstart hstop _ => ?_⟩
  · intro _ hpart
    obtain rfl := Option.mem_some_iff.mp hpart
    omega
  · intro _ hpart
    obtain rfl := Option.mem_some_iff.mp hpart
    refine ⟨by omega, ?_⟩
    rw [htextStart, htextStop, Nat.add_sub_cancel_left, hlines, List.take_left', hcontent]
    rfl
  · exact .text List.mem_cons_self (by omega) (by omega)

theorem getElem?_of_drop {place : ℕ} (hlines : lines.drop index = behind) (hplace : index ≤ place) :
    lines[place]? = behind[place - index]? := by
  rw [← hlines, List.getElem?_drop, Nat.add_sub_cancel' hplace]

variable {line : Text}

/-- A block of code begins with a fence, and ends in front of the next one. -/
theorem sectionStep_of_fence {rest : List Text} {word : Text}
    (hlines : lines.drop index = line :: rest)
    (hline : fenceLanguage tables.chars tables.patterns line = some word)
    (hcontent : part.content = joinLines (rest.takeWhile (!startsFence ·)))
    (hstart : part.startLine = index)
    (hend : part.endLine = index + 1 + (rest.takeWhile (!startsFence ·)).length)
    (hfence : part.isCodeFence = true) {next : ℕ} (hnext : next = part.endLine + 1) :
    SectionStep tables lines index next (some part) := by
  generalize htaken : (rest.takeWhile (!startsFence ·)) = taken at hcontent hend
  have hrest : taken ++ rest.dropWhile ((!startsFence ·)) = rest := by
    rw [← htaken, List.takeWhile_append_dropWhile]
  have hlength := congrArg List.length hlines
  have hcount := congrArg List.length hrest
  rw [List.length_drop, List.length_cons] at hlength
  rw [List.length_append] at hcount
  have htextStart : part.textStart = index + 1 := by
    rw [PlacedSection.textStart, if_pos hfence, hstart]
  have htextStop : part.textStop = index + 1 + taken.length := by
    rw [PlacedSection.textStop, if_pos hfence, hend]
  refine ⟨by omega, ?_, ?_, fun place found hplace hstop hfound => ?_⟩
  · intro _ hpart
    obtain rfl := Option.mem_some_iff.mp hpart
    omega
  · intro _ hpart
    obtain rfl := Option.mem_some_iff.mp hpart
    have hbehind : lines.drop (index + 1) = rest := by
      rw [← List.drop_drop, hlines, List.drop_one, List.tail_cons]
    refine ⟨by omega, ?_⟩
    rw [htextStart, htextStop, Nat.add_sub_cancel_left, hbehind, ← hrest, List.take_left', hcontent]
    rfl
  · rcases Nat.eq_or_lt_of_le hplace with rfl | hbehind
    · rw [getElem?_of_drop hlines hplace, Nat.sub_self, List.getElem?_cons_zero] at hfound
      obtain rfl := Option.some.inj hfound
      exact .opening List.mem_cons_self hfence hstart.symm (Option.isSome_of_mem hline)
    have hwithin : place ≤ part.endLine := by omega
    rcases Nat.eq_or_lt_of_le hwithin with hlast | hinside
    · -- The line behind the block is the one that ended it.
      refine .closing List.mem_cons_self hfence hlast ?_
      have hskip : place - index = taken.length + 1 := by omega
      rw [getElem?_of_drop hlines hplace, hskip, List.getElem?_cons_succ, ← hrest,
        List.getElem?_append_right le_rfl, Nat.sub_self, ← List.head?_eq_getElem?] at hfound
      have hnot := List.head?_dropWhile_not ((!startsFence ·)) rest
      rw [hfound] at hnot
      have hopened : (!startsFence found) = false := hnot
      rwa [Bool.not_eq_false'] at hopened
    · exact .text List.mem_cons_self (by omega) (by omega)

theorem isSpace_of_strip_eq_nil {chars : CharTables} {text : Text}
    (hstrip : strip chars text = []) :
    ∀ char ∈ text, chars.isSpace char = true := by
  rw [strip, List.reverse_eq_nil_iff, List.dropWhile_eq_nil_iff] at hstrip
  have hdropped : text.dropWhile chars.isSpace = [] := by
    by_contra hne
    obtain ⟨first, rest, hfirst⟩ := List.exists_cons_of_ne_nil hne
    have hnot := List.head?_dropWhile_not chars.isSpace text
    rw [hfirst] at hnot
    rw [hfirst] at hstrip
    exact Bool.false_ne_true
      (hnot.symm.trans (hstrip first (List.mem_reverse.mpr List.mem_cons_self)))
  exact List.dropWhile_eq_nil_iff.mp hdropped

theorem mem_joinLines (hline : line ∈ lines) : ∀ char ∈ line, char ∈ joinLines lines := by
  induction lines with
  | nil => exact absurd hline List.not_mem_nil
  | cons first rest ih =>
      intro char hchar
      cases rest with
      | nil =>
          obtain rfl := List.mem_singleton.mp hline
          rwa [joinLines, List.intercalate_singleton]
      | cons second rest =>
          rw [joinLines, List.intercalate_cons_cons]
          rcases List.mem_cons.mp hline with rfl | hline
          · exact List.mem_append_left _ (List.mem_append_left _ hchar)
          · exact List.mem_append_right _ (ih hline char hchar)

/-- A blank run of lines is in no section. -/
theorem sectionStep_of_blank (hlines : lines.drop index = taken ++ behind) (hne : taken ≠ [])
    (hblank : isBlank tables.chars (joinLines taken) = true) :
    SectionStep tables lines index (index + taken.length) none := by
  have hpositive := List.length_pos_iff.mpr hne
  refine ⟨by omega, nofun, nofun, fun place line hstart hstop hline => .blank ?_⟩
  rw [getElem?_of_drop hlines hstart, List.getElem?_append_left (by omega)] at hline
  exact fun char hchar => isSpace_of_strip_eq_nil (List.isEmpty_iff.mp hblank) char
    (mem_joinLines (List.mem_of_getElem? hline) char hchar)

theorem sectionStep_sectionAt {rest : List Text} (hlines : lines.drop index = line :: rest) :
    SectionStep tables lines index (sectionAt tables index line rest).2
      (sectionAt tables index line rest).1 := by
  rw [sectionAt]
  cases hfence : fenceLanguage tables.chars tables.patterns line with
  | some word =>
      dsimp only
      exact sectionStep_of_fence hlines hfence rfl rfl rfl rfl rfl
  | none =>
      dsimp only
      cases hjson : leadingJson tables line rest with
      | some block =>
          obtain ⟨⟨behind, hbehind⟩, hne⟩ := isPrefix_of_leadingJson hjson
          exact sectionStep_of_run (hlines.trans hbehind.symm) hne rfl rfl rfl rfl
      | none =>
          dsimp only
          cases hsearch : isSearchResult tables.chars line with
          | true =>
              have htaken := List.takeWhile_append_dropWhile (p := isSearchResult tables.chars)
                (l := line :: rest)
              have hne : (line :: rest).takeWhile (isSearchResult tables.chars) ≠ [] := by
                rw [List.takeWhile_cons_of_pos hsearch]
                exact List.cons_ne_nil _ _
              exact sectionStep_of_run (hlines.trans htaken.symm) hne rfl rfl rfl rfl
          | false =>
              have htaken := List.takeWhile_append_dropWhile
                (p := continuesText tables.chars tables.patterns) (l := rest)
              have hsplit : lines.drop index =
                  (line :: rest.takeWhile (continuesText tables.chars tables.patterns)) ++
                    rest.dropWhile (continuesText tables.chars tables.patterns) := by
                rw [hlines, List.cons_append, htaken]
              rw [if_neg Bool.false_ne_true]
              split_ifs with hblank
              · exact sectionStep_of_blank hsplit (List.cons_ne_nil _ _) hblank
              · exact sectionStep_of_run hsplit (List.cons_ne_nil _ _) rfl rfl rfl rfl

theorem Accounted.mono {sections more : List PlacedSection} {place : ℕ}
    (hsections : ∀ found ∈ sections, found ∈ more)
    (haccounted : Accounted tables sections place line) : Accounted tables more place line := by
  cases haccounted with
  | text hfound hstart hstop => exact .text (hsections _ hfound) hstart hstop
  | opening hfound hfence hplace hline => exact .opening (hsections _ hfound) hfence hplace hline
  | closing hfound hfence hplace hline => exact .closing (hsections _ hfound) hfence hplace hline
  | blank hline => exact .blank hline

theorem Accounts.step {next : ℕ} {found : Option PlacedSection} {sections : List PlacedSection}
    (hstep : SectionStep tables lines index next found)
    (hrest : Accounts tables lines next sections) :
    Accounts tables lines index (found.toList ++ sections) where
  ordered := by
    intro part hpart
    rcases List.mem_append.mp hpart with hpart | hpart
    · obtain ⟨hstart, hordered, -⟩ := hstep.placed part (Option.mem_toList.mp hpart)
      exact ⟨hstart.ge, hordered⟩
    · obtain ⟨hstart, hordered⟩ := hrest.ordered part hpart
      exact ⟨hstep.advances.le.trans hstart, hordered⟩
  increasing := by
    refine List.pairwise_append.mpr ⟨?_, hrest.increasing, fun earlier hearlier later hlater => ?_⟩
    · cases found with
      | none => exact List.Pairwise.nil
      | some part => exact List.pairwise_singleton _ part
    · exact (hstep.placed earlier (Option.mem_toList.mp hearlier)).2.2.trans_le
        (hrest.ordered later hlater).1
  hasText := by
    intro part hpart
    rcases List.mem_append.mp hpart with hpart | hpart
    · exact hstep.hasText part (Option.mem_toList.mp hpart)
    · exact hrest.hasText part hpart
  accounted := by
    intro place line hplace hline
    rcases Nat.lt_or_ge place next with hbefore | hbehind
    · exact (hstep.accounted place line hplace hbefore hline).mono fun _ =>
        List.mem_append_left sections
    · exact (hrest.accounted place line hbehind hline).mono fun _ => List.mem_append_right _

theorem accounts_nil (hindex : lines.length ≤ index) : Accounts tables lines index [] := by
  refine ⟨nofun, List.Pairwise.nil, nofun, fun place line hplace hline => ?_⟩
  rw [List.getElem?_eq_none (hindex.trans hplace)] at hline
  cases hline

theorem accounts_sectionsFrom {fuel : ℕ} (hfuel : lines.length ≤ index + fuel) :
    Accounts tables lines index (sectionsFrom tables lines fuel index) := by
  induction fuel generalizing index with
  | zero => exact accounts_nil hfuel
  | succ fuel ih =>
      rw [sectionsFrom]
      cases hlines : lines.drop index with
      | nil => exact accounts_nil (List.drop_eq_nil_iff.mp hlines)
      | cons line rest =>
          have hstep : SectionStep tables lines index _ _ := sectionStep_sectionAt hlines
          have hadvances := hstep.advances
          exact Accounts.step hstep (ih (by omega))

end

end Legroom.MixedContent
