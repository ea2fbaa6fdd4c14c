import Legroom.Transforms.MixedContent

/-!
# Fenced blocks in mixed content

A block of code begins with three backticks and any info string, and a bare fence ends it.
The splitter wants a word for the info string and takes any backticks for the end, and JSON
that is not balanced takes it past a fence.
-/

namespace Legroom.MixedContent

open Python Regex LosslessRouter

section

variable (tables : LineTables)

/-! ## Fenced blocks -/

/-- Three backticks and nothing else. -/
def isBareFence (line : Text) : Bool :=
  startsFence line && (line.drop fence.length).all tables.chars.isSpace

/-- A block from a line of three backticks with any info string to the first bare fence, with
the lines in front of it. -/
structure FencedBlock where
  before : List Text
  info : Text
  inside : List Text
  closing : Text
  before_outside : ∀ line ∈ before, startsFence line = false
  inside_open : ∀ line ∈ inside, isBareFence tables line = false
  closing_bare : isBareFence tables closing = true

/-- Where a line is. -/
inductive Place where
  | outside | delimiter | inside
deriving DecidableEq

/-- The kinds of sections that a line may be in. -/
def Place.Allows : Place → ContentType → Prop
  | outside, contentType => contentType ≠ .sourceCode
  | delimiter, _ => True
  | inside, contentType => contentType = .sourceCode

variable {tables}

namespace FencedBlock

variable (block : FencedBlock tables)

def opening : Text := fence ++ block.info

def lines : List Text := block.before ++ block.opening :: (block.inside ++ [block.closing])

def places : List Place :=
  block.before.map (fun _ => .outside) ++
    .delimiter :: (block.inside.map (fun _ => .inside) ++ [.delimiter])

end FencedBlock

variable (tables)

/-- A content whose fenced blocks are well formed. -/
structure Document where
  blocks : List (FencedBlock tables)
  last : List Text
  last_outside : ∀ line ∈ last, startsFence line = false

/-- The lines between two blocks are read without reaching what is behind them: no JSON that
begins in them goes on there. -/
inductive Stays (behind : List Text) : List Text → Prop
  | done : Stays behind []
  | json {line : Text} {rest block : List Text}
      (hblock : leadingJson tables line (rest ++ behind) = some block)
      (hwithin : block.length ≤ rest.length + 1)
      (hrest : Stays behind ((line :: rest).drop block.length)) : Stays behind (line :: rest)
  | search {line : Text} {rest : List Text}
      (hblock : leadingJson tables line (rest ++ behind) = none)
      (hsearch : isSearchResult tables.chars line = true)
      (hrest : Stays behind (rest.dropWhile (isSearchResult tables.chars))) :
      Stays behind (line :: rest)
  | text {line : Text} {rest : List Text}
      (hblock : leadingJson tables line (rest ++ behind) = none)
      (hsearch : isSearchResult tables.chars line = false)
      (hrest : Stays behind (rest.dropWhile (continuesText tables.chars tables.patterns))) :
      Stays behind (line :: rest)

variable {tables}

namespace FencedBlock

/-- The opening line has nothing but a word behind its backticks, no line inside begins with
backticks, and no JSON from outside reaches the block. -/
structure Followed (block : FencedBlock tables) (behind : List Text) : Prop where
  opening : (fenceLanguage tables.chars tables.patterns block.opening).isSome
  inside : ∀ line ∈ block.inside, startsFence line = false
  before : Stays tables (block.opening :: (block.inside ++ block.closing :: behind)) block.before

end FencedBlock

namespace Document

variable (document : Document tables)

def linesOf (last : List Text) (blocks : List (FencedBlock tables)) : List Text :=
  blocks.foldr (fun block behind => block.lines ++ behind) last

def lines : List Text := linesOf document.last document.blocks

def places : List Place :=
  document.blocks.foldr (fun block behind => block.places ++ behind)
    (document.last.map fun _ => .outside)

def FollowedIn (last : List Text) : List (FencedBlock tables) → Prop
  | [] => True
  | block :: blocks => block.Followed (linesOf last blocks) ∧ FollowedIn last blocks

def Followed : Prop := FollowedIn document.last document.blocks

end Document

/-- The lines from an index on are in sections of the kinds that their places allow. -/
def Separated (index : ℕ) (places : List Place) (sections : List PlacedSection) : Prop :=
  ∀ offset place, places[offset]? = some place → ∀ found ∈ sections,
    found.startLine ≤ index + offset → index + offset ≤ found.endLine →
      place.Allows found.contentType

/-! ## Reading between the blocks -/

variable {line : Text}

theorem append_of_fenceLanguage {word : Text}
    (hline : fenceLanguage tables.chars tables.patterns line = some word) :
    ∃ spaces, line = fence ++ word ++ spaces ∧
      (∀ char ∈ word, tables.patterns.isWord char = true) ∧
      ∀ char ∈ spaces, tables.chars.isSpace char = true := by
  obtain ⟨rest, hrest, hword⟩ := Option.bind_eq_some_iff.mp hline
  obtain ⟨begins, rfl, hbegins⟩ := List.dropPrefix?_eq_some_iff.mp hrest
  obtain rfl := beq_iff_eq.mp hbegins
  split_ifs at hword with hspaces
  obtain rfl := Option.some.inj hword
  refine ⟨rest.dropWhile tables.patterns.isWord, ?_, fun char => List.mem_takeWhile_imp,
    List.all_eq_true.mp hspaces⟩
  rw [List.append_assoc, List.takeWhile_append_dropWhile]

theorem startsFence_of_fenceLanguage {word : Text}
    (hline : fenceLanguage tables.chars tables.patterns line = some word) :
    startsFence line = true := by
  obtain ⟨spaces, rfl, -, -⟩ := append_of_fenceLanguage hline
  rw [startsFence, List.append_assoc]
  exact List.isPrefixOf_iff_prefix.mpr (List.prefix_append fence _)

theorem fenceLanguage_eq_none (hline : startsFence line = false) :
    fenceLanguage tables.chars tables.patterns line = none := by
  cases hword : fenceLanguage tables.chars tables.patterns line with
  | none => rfl
  | some word => exact absurd hline (Bool.not_eq_false _ ▸ startsFence_of_fenceLanguage hword)

/-- The line that opens a block is no line of a search, for it has no colon. -/
theorem isSearchResult_of_fenceLanguage
    (hline : (fenceLanguage tables.chars tables.patterns line).isSome) :
    isSearchResult tables.chars line = false := by
  obtain ⟨word, hword⟩ := Option.isSome_iff_exists.mp hline
  obtain ⟨spaces, hsplit, hchars, hspaces⟩ := append_of_fenceLanguage hword
  have hcolon : colon ∉ line := by
    intro hmem
    rw [hsplit] at hmem
    rcases List.mem_append.mp hmem with hmem | hmem
    · rcases List.mem_append.mp hmem with hmem | hmem
      · exact absurd hmem (by decide)
      · have haccepts := hchars colon hmem
        rw [tables.patterns.isWord_ascii colon (by decide)] at haccepts
        cases haccepts
    · have haccepts := hspaces colon hmem
      rw [tables.isSpace_ascii colon (by decide)] at haccepts
      cases haccepts
  rw [isSearchResult, Bool.not_eq_false', List.isEmpty_iff, List.eq_nil_iff_forall_not_mem]
  rintro ⟨groups, rest⟩ hmatch
  obtain ⟨taken, rfl, hspelled⟩ := spelled_of_mem_matchesAt hmatch
  obtain ⟨char, hchar, haccepts⟩ := exists_mem_of_spelled hspelled
    (List.mem_cons_of_mem _ List.mem_cons_self)
  rw [beq_iff_eq.mp haccepts] at hchar
  exact hcolon (List.mem_append_left rest hchar)

theorem takeWhile_append_of_head {accepts : Text → Bool} {front back : List Text}
    (hback : ∀ line ∈ back.head?, accepts line = false) :
    (front ++ back).takeWhile accepts = front.takeWhile accepts := by
  induction front with
  | nil =>
      cases back with
      | nil => rfl
      | cons line back =>
          rw [List.nil_append, List.takeWhile_nil, List.takeWhile_cons_of_neg]
          rw [hback line rfl]
          exact Bool.false_ne_true
  | cons line front ih =>
      rw [List.cons_append, List.takeWhile_cons, List.takeWhile_cons, ih]

/-- Only a line that opens a block begins a section of code. -/
theorem kind_of_sectionAt (hline : fenceLanguage tables.chars tables.patterns line = none)
    (rest : List Text) (index : ℕ) :
    ∀ part ∈ (sectionAt tables index line rest).1,
      part.contentType ≠ .sourceCode ∧ part.isCodeFence = false := by
  rw [sectionAt, hline]
  dsimp only
  cases leadingJson tables line rest with
  | some block =>
      rintro _ ⟨⟩
      exact ⟨by simp, rfl⟩
  | none =>
      dsimp only
      split_ifs
      · rintro _ ⟨⟩
        exact ⟨by simp, rfl⟩
      · exact fun _ hnone => absurd hnone (Option.not_mem_none _)
      · rintro _ ⟨⟩
        exact ⟨by simp, rfl⟩

/-- One section of the lines between two blocks ends there, or it is JSON that goes on. -/
theorem sectionAt_between {behind rest : List Text} (hline : startsFence line = false)
    (hbehind : ∀ next ∈ behind.head?, (fenceLanguage tables.chars tables.patterns next).isSome)
    (index : ℕ) :
    ∃ found count, sectionAt tables index line (rest ++ behind) = (found, index + count) ∧
      (count ≤ rest.length + 1 ∧
          (Stays tables behind (line :: rest) ↔ Stays tables behind ((line :: rest).drop count)) ∨
        rest.length + 1 < count ∧ ¬Stays tables behind (line :: rest) ∧
          ∃ part, found = some part ∧ part.endLine + 1 = index + count) := by
  rw [sectionAt, fenceLanguage_eq_none hline]
  dsimp only
  cases hblock : leadingJson tables line (rest ++ behind) with
  | some block =>
      have hpositive := List.length_pos_iff.mpr (isPrefix_of_leadingJson hblock).2
      have hread {other : List Text}
          (hother : leadingJson tables line (rest ++ behind) = some other) : other = block :=
        Option.some.inj (hother.symm.trans hblock)
      refine ⟨_, block.length, rfl, ?_⟩
      rcases Nat.lt_or_ge (rest.length + 1) block.length with hcrosses | hwithin
      · refine .inr ⟨hcrosses, fun hstays => ?_, _, rfl, by dsimp only; omega⟩
        cases hstays with
        | json hother hwithin _ => exact absurd hwithin (hread hother ▸ hcrosses.not_ge)
        | search hother _ _ => cases hother.symm.trans hblock
        | text hother _ _ => cases hother.symm.trans hblock
      · refine .inl ⟨hwithin, fun hstays => ?_, .json hblock hwithin⟩
        cases hstays with
        | json hother _ hrest => exact hread hother ▸ hrest
        | search hother _ _ => cases hother.symm.trans hblock
        | text hother _ _ => cases hother.symm.trans hblock
  | none =>
      dsimp only
      cases hsearch : isSearchResult tables.chars line with
      | true =>
          have htaken : (rest ++ behind).takeWhile (isSearchResult tables.chars) =
              rest.takeWhile (isSearchResult tables.chars) :=
            takeWhile_append_of_head fun next hnext =>
              isSearchResult_of_fenceLanguage (hbehind next hnext)
          rw [if_pos rfl, List.takeWhile_cons_of_pos hsearch, htaken]
          refine ⟨_, _, rfl, .inl ⟨Nat.succ_le_succ (List.takeWhile_prefix _).length_le, ?_⟩⟩
          rw [List.length_cons, List.drop_succ_cons, drop_length_takeWhile]
          refine ⟨fun hstays => ?_, .search hblock hsearch⟩
          cases hstays with
          | json hother _ _ => cases hblock.symm.trans hother
          | search _ _ hrest => exact hrest
          | text _ hother _ => cases hother.symm.trans hsearch
      | false =>
          have htaken : (rest ++ behind).takeWhile (continuesText tables.chars tables.patterns) =
              rest.takeWhile (continuesText tables.chars tables.patterns) :=
            takeWhile_append_of_head fun next hnext => by
              rw [continuesText, hbehind next hnext]
              rfl
          rw [if_neg Bool.false_ne_true, htaken]
          refine ⟨_, _, rfl, .inl ⟨Nat.succ_le_succ (List.takeWhile_prefix _).length_le, ?_⟩⟩
          rw [List.length_cons, List.drop_succ_cons, drop_length_takeWhile]
          refine ⟨fun hstays => ?_, .text hblock hsearch⟩
          cases hstays with
          | json hother _ _ => cases hblock.symm.trans hother
          | search _ hother _ => cases hother.symm.trans hsearch
          | text _ _ hrest => exact hrest

variable {lines : List Text} {fuel index : ℕ}

/-- The sections of the lines between two blocks end in front of the second one, or one that
is no code goes on. -/
theorem sectionsFrom_between {behind : List Text}
    (hbehind : ∀ next ∈ behind.head?, (fenceLanguage tables.chars tables.patterns next).isSome)
    {stretch : List Text} (hstretch : ∀ line ∈ stretch, startsFence line = false)
    (hlines : lines.drop index = stretch ++ behind) (hfuel : lines.length ≤ index + fuel) :
    (Stays tables behind stretch ∧
      ∃ found rest, sectionsFrom tables lines fuel index =
          found ++ sectionsFrom tables lines rest (index + stretch.length) ∧
        lines.length ≤ index + stretch.length + rest ∧
        ∀ part ∈ found,
          part.contentType ≠ .sourceCode ∧ part.endLine < index + stretch.length) ∨
    (¬Stays tables behind stretch ∧
      ∃ found rest part, sectionsFrom tables lines fuel index =
          found ++ sectionsFrom tables lines rest (part.endLine + 1) ∧
        lines.length ≤ part.endLine + 1 + rest ∧ part ∈ found ∧
        part.contentType ≠ .sourceCode ∧ part.startLine ≤ index + stretch.length ∧
        index + stretch.length ≤ part.endLine) := by
  induction fuel generalizing index stretch with
  | zero =>
      have hnil : stretch = [] := by
        rw [List.drop_eq_nil_of_le (show lines.length ≤ index from hfuel)] at hlines
        exact (List.append_eq_nil_iff.mp hlines.symm).1
      rw [hnil]
      exact .inl ⟨.done, [], 0, rfl, hfuel, nofun⟩
  | succ fuel ih =>
      cases stretch with
      | nil => exact .inl ⟨.done, [], fuel + 1, rfl, hfuel, nofun⟩
      | cons line rest =>
          have hline := hstretch line List.mem_cons_self
          rw [List.cons_append] at hlines
          have hstep : SectionStep tables lines index _ _ := sectionStep_sectionAt hlines
          have hnone : fenceLanguage tables.chars tables.patterns line = none :=
            fenceLanguage_eq_none hline
          have hkinds := kind_of_sectionAt hnone (rest ++ behind) index
          obtain ⟨found, count, hsection, hcases⟩ := sectionAt_between hline hbehind index
          rw [hsection] at hstep hkinds
          have hadvances := hstep.advances
          have hunfold : sectionsFrom tables lines (fuel + 1) index =
              found.toList ++ sectionsFrom tables lines fuel (index + count) := by
            rw [sectionsFrom, hlines]
            dsimp only
            rw [hsection]
          rw [hunfold]
          rcases hcases with ⟨hcount, hiff⟩ | ⟨hcrosses, hstays, part, rfl, hend⟩
          · have hdropped : lines.drop (index + count) = (line :: rest).drop count ++ behind := by
              rw [← List.drop_drop, hlines, ← List.cons_append,
                List.drop_append_of_le_length hcount]
            have hlength : index + count + ((line :: rest).drop count).length =
                index + (line :: rest).length := by
              rw [List.length_drop, List.length_cons]
              omega
            rw [hiff]
            rcases ih (fun line hmem => hstretch line (List.mem_of_mem_drop hmem)) hdropped
              (by omega) with ⟨hstays, more, left, hmore, hleft, hparts⟩ |
                ⟨hstays, more, left, part, hmore, hleft, hpart, hkind, hstart, hend⟩
            · rw [hlength] at hmore hleft hparts
              refine .inl ⟨hstays, found.toList ++ more, left, ?_, hleft, fun part hpart => ?_⟩
              · rw [hmore, List.append_assoc]
              · rcases List.mem_append.mp hpart with hpart | hpart
                · have hfound := Option.mem_toList.mp hpart
                  have hend := (hstep.placed part hfound).2.2
                  exact ⟨(hkinds part hfound).1, by rw [List.length_cons]; omega⟩
                · exact hparts part hpart
            · rw [hlength] at hstart hend
              refine .inr ⟨hstays, found.toList ++ more, left, part, ?_, hleft,
                List.mem_append_right _ hpart, hkind, hstart, hend⟩
              rw [hmore, List.append_assoc]
          · have hstart := (hstep.placed part rfl).1
            refine .inr ⟨hstays, [part], fuel, part, ?_, by omega, List.mem_cons_self,
              (hkinds part rfl).1, by omega, ?_⟩
            · rw [hend]
              rfl
            · rw [List.length_cons]
              omega

/-- Nothing is behind the last lines that could be reached. -/
theorem stays_nil (stretch : List Text) : Stays tables [] stretch := by
  induction hlength : stretch.length using Nat.strong_induction_on generalizing stretch with
  | _ count ih =>
      cases stretch with
      | nil => exact .done
      | cons line rest =>
          rw [List.length_cons] at hlength
          cases hblock : leadingJson tables line (rest ++ []) with
          | some block =>
              have hfront := isPrefix_of_leadingJson hblock
              have hpositive := List.length_pos_iff.mpr hfront.2
              have hwithin := hfront.1.length_le
              rw [List.append_nil, List.length_cons] at hwithin
              refine .json hblock hwithin (ih _ ?_ _ rfl)
              rw [List.length_drop, List.length_cons]
              omega
          | none =>
              cases hsearch : isSearchResult tables.chars line with
              | true =>
                  refine .search hblock hsearch (ih _ ?_ _ rfl)
                  have := List.length_dropWhile_le (isSearchResult tables.chars) rest
                  omega
              | false =>
                  refine .text hblock hsearch (ih _ ?_ _ rfl)
                  have := List.length_dropWhile_le (continuesText tables.chars tables.patterns) rest
                  omega

/-! ## Reading the blocks -/

theorem Separated.append {front back : List Place} {found more : List PlacedSection}
    (hfront : Separated index front found) (hback : Separated (index + front.length) back more)
    (hends : ∀ part ∈ found, part.endLine < index + front.length)
    (hstarts : ∀ part ∈ more, index + front.length ≤ part.startLine) :
    Separated index (front ++ back) (found ++ more) := by
  intro offset place hplace part hpart hstart hstop
  rcases Nat.lt_or_ge offset front.length with hbefore | hbehind
  · rw [List.getElem?_append_left hbefore] at hplace
    rcases List.mem_append.mp hpart with hpart | hpart
    · exact hfront offset place hplace part hpart hstart hstop
    · have := hstarts part hpart
      omega
  · rw [List.getElem?_append_right hbehind] at hplace
    rcases List.mem_append.mp hpart with hpart | hpart
    · have := hends part hpart
      omega
    · exact hback (offset - front.length) place hplace part hpart (by omega) (by omega)

theorem Separated.behind {front back : List Place} {found more : List PlacedSection}
    (hseparated : Separated index (front ++ back) (found ++ more)) :
    Separated (index + front.length) back more := by
  intro offset place hplace part hpart hstart hstop
  rw [Nat.add_assoc] at hstart hstop
  refine hseparated (front.length + offset) place ?_ part (List.mem_append_right _ hpart) hstart
    hstop
  rwa [List.getElem?_append_right (Nat.le_add_right _ _), Nat.add_sub_cancel_left]

theorem separated_outside (lines : List Text) {found : List PlacedSection}
    (hfound : ∀ part ∈ found, part.contentType ≠ .sourceCode) :
    Separated index (lines.map fun _ => .outside) found := by
  intro offset place hplace part hpart _ _
  obtain ⟨line, -, rfl⟩ := List.mem_map.mp (List.mem_of_getElem? hplace)
  exact hfound part hpart

theorem separated_code (inside : List Text) {part : PlacedSection}
    (hpart : part.contentType = .sourceCode) :
    Separated index (.delimiter :: (inside.map (fun _ => .inside) ++ [.delimiter])) [part] := by
  intro offset place hplace other hother _ _
  obtain rfl := List.mem_singleton.mp hother
  rcases List.mem_cons.mp (List.mem_of_getElem? hplace) with rfl | hmem
  · trivial
  rcases List.mem_append.mp hmem with hmem | hmem
  · obtain ⟨line, -, rfl⟩ := List.mem_map.mp hmem
    exact hpart
  · rw [List.mem_singleton.mp hmem]
    trivial

variable {block : FencedBlock tables}

/-- A block that is followed is one section of code. -/
theorem sectionAt_block {behind : List Text} (hfollowed : block.Followed behind) (index : ℕ) :
    ∃ part, sectionAt tables index block.opening (block.inside ++ block.closing :: behind) =
        (some part, index + (block.inside.length + 2)) ∧
      part.contentType = .sourceCode ∧ part.endLine < index + (block.inside.length + 2) := by
  obtain ⟨word, hword⟩ := Option.isSome_iff_exists.mp hfollowed.opening
  have hclosing : startsFence block.closing = true := (Bool.and_eq_true_iff.mp block.closing_bare).1
  have htaken : ((block.inside ++ block.closing :: behind).takeWhile (!startsFence ·)) =
      block.inside := by
    rw [takeWhile_append_of_head, List.takeWhile_eq_self_iff]
    · exact fun line hline => Bool.not_eq_true' .. ▸ hfollowed.inside line hline
    · rintro _ ⟨⟩
      rw [hclosing]
      rfl
  rw [sectionAt, hword]
  dsimp only
  rw [htaken]
  exact ⟨_, Prod.ext rfl (by dsimp only; omega), rfl, by dsimp only; omega⟩

theorem sectionsFrom_of_drop_eq_nil (hlines : lines.drop index = []) (fuel : ℕ) :
    sectionsFrom tables lines fuel index = [] := by
  cases fuel with
  | zero => rfl
  | succ fuel => rw [sectionsFrom, hlines]

theorem linesOf_cons (last : List Text) (block : FencedBlock tables)
    (blocks : List (FencedBlock tables)) :
    Document.linesOf last (block :: blocks) =
      block.before ++
        block.opening :: (block.inside ++ block.closing :: Document.linesOf last blocks) := by
  rw [Document.linesOf, List.foldr_cons, FencedBlock.lines, List.append_assoc, List.cons_append,
    List.append_assoc, List.singleton_append]
  rfl

/-- One block and the sections behind it. -/
theorem sectionsFrom_block {behind : List Text} (hfollowed : block.Followed behind)
    (hlines : lines.drop index =
      block.before ++ block.opening :: (block.inside ++ block.closing :: behind))
    (hfuel : lines.length ≤ index + fuel) :
    ∃ found rest, sectionsFrom tables lines fuel index =
        found ++ sectionsFrom tables lines rest (index + block.places.length) ∧
      lines.length ≤ index + block.places.length + rest ∧
      lines.drop (index + block.places.length) = behind ∧
      Separated index block.places found ∧
      ∀ part ∈ found, part.endLine < index + block.places.length := by
  have hbehind : ∀ next ∈ (block.opening :: (block.inside ++ block.closing :: behind)).head?,
      (fenceLanguage tables.chars tables.patterns next).isSome := by
    rintro _ ⟨⟩
    exact hfollowed.opening
  have hplaces : block.places.length = block.before.length + (block.inside.length + 2) := by
    rw [FencedBlock.places, List.length_append, List.length_map, List.length_cons,
      List.length_append, List.length_map, List.length_singleton]
  obtain ⟨-, found, rest, hfound, hrest, hparts⟩ :=
    (sectionsFrom_between hbehind block.before_outside hlines hfuel).resolve_right
      fun hcrosses => hcrosses.1 hfollowed.before
  have hmiddle : lines.drop (index + block.before.length) =
      block.opening :: (block.inside ++ block.closing :: behind) := by
    rw [← List.drop_drop, hlines, List.drop_left]
  have hlength := congrArg List.length hmiddle
  rw [List.length_drop, List.length_cons] at hlength
  obtain ⟨rest, rfl⟩ : ∃ less, rest = less + 1 := ⟨rest - 1, by omega⟩
  obtain ⟨part, hpart, hkind, hend⟩ :=
    sectionAt_block hfollowed (index + block.before.length)
  have hstep : SectionStep tables lines (index + block.before.length) _ _ :=
    sectionStep_sectionAt hmiddle
  rw [hpart] at hstep
  have hstart := (hstep.placed part rfl).1
  refine ⟨found ++ [part], rest, ?_, by omega, ?_, ?_, fun other hother => ?_⟩
  · rw [hfound, sectionsFrom, hmiddle]
    dsimp only
    rw [hpart, hplaces, Nat.add_assoc, List.append_assoc]
    rfl
  · have hblock : block.opening :: (block.inside ++ block.closing :: behind) =
        block.opening :: (block.inside ++ [block.closing]) ++ behind := by
      rw [List.cons_append, List.append_assoc, List.singleton_append]
    rw [hplaces, ← Nat.add_assoc, ← List.drop_drop, hmiddle, hblock]
    refine List.drop_left' ?_
    rw [List.length_cons, List.length_append, List.length_singleton]
  · rw [FencedBlock.places]
    refine Separated.append (separated_outside _ fun part hpart => (hparts part hpart).1) ?_ ?_ ?_
    · exact separated_code block.inside hkind
    · rw [List.length_map]
      exact fun part hpart => (hparts part hpart).2
    · intro other hother
      rw [List.mem_singleton.mp hother, List.length_map]
      exact hstart.ge
  · rcases List.mem_append.mp hother with hother | hother
    · have := (hparts other hother).2
      omega
    · rw [List.mem_singleton.mp hother]
      omega

variable {last : List Text} {blocks : List (FencedBlock tables)}

theorem separated_linesOf (hlast : ∀ line ∈ last, startsFence line = false)
    (hfollowed : Document.FollowedIn last blocks)
    (hlines : lines.drop index = Document.linesOf last blocks)
    (hfuel : lines.length ≤ index + fuel) :
    Separated index
      (blocks.foldr (fun block behind => block.places ++ behind) (last.map fun _ => .outside))
      (sectionsFrom tables lines fuel index) := by
  induction blocks generalizing fuel index with
  | nil =>
      have hnothing : lines.drop index = last ++ [] := hlines.trans (List.append_nil last).symm
      obtain ⟨-, found, rest, hfound, -, hparts⟩ :=
        (sectionsFrom_between (by rintro _ ⟨⟩) hlast hnothing hfuel).resolve_right
          fun hcrosses => hcrosses.1 (stays_nil last)
      have hdone : lines.drop (index + last.length) = [] := by
        rw [← List.drop_drop, hnothing, List.drop_left]
      rw [hfound, sectionsFrom_of_drop_eq_nil hdone, List.append_nil]
      exact separated_outside last fun part hpart => (hparts part hpart).1
  | cons block blocks ih =>
      rw [linesOf_cons] at hlines
      obtain ⟨found, rest, hfound, hrest, hbehind, hseparated, hends⟩ :=
        sectionsFrom_block hfollowed.1 hlines hfuel
      rw [hfound, List.foldr_cons]
      exact hseparated.append (ih hfollowed.2 hbehind hrest) hends
        fun part hpart => ((accounts_sectionsFrom hrest).ordered part hpart).1

/-! ## Slips that show -/

/-- A line that is read outside of a block is in a section of no code, if something is on it. -/
theorem exists_section_of_line {place : ℕ} (hfuel : lines.length ≤ index + fuel)
    (hplace : index ≤ place) (hline : lines[place]? = some line)
    (hshown : ∃ char ∈ line, tables.chars.isSpace char = false)
    (hbetween : ∀ between other, index ≤ between → between ≤ place →
      lines[between]? = some other → fenceLanguage tables.chars tables.patterns other = none) :
    ∃ part ∈ sectionsFrom tables lines fuel index,
      part.contentType ≠ .sourceCode ∧ part.startLine ≤ place ∧ place ≤ part.endLine := by
  have hlength := (List.getElem?_eq_some_iff.mp hline).1
  induction fuel generalizing index with
  | zero => omega
  | succ fuel ih =>
      cases hlines : lines.drop index with
      | nil => exact absurd (List.drop_eq_nil_iff.mp hlines) (by omega)
      | cons first rest =>
          have hfirst : lines[index]? = some first := by
            rw [getElem?_of_drop hlines le_rfl, Nat.sub_self, List.getElem?_cons_zero]
          have hnone := hbetween index first le_rfl hplace hfirst
          have hkinds := kind_of_sectionAt hnone rest index
          have hstep : SectionStep tables lines index _ _ := sectionStep_sectionAt hlines
          have hadvances := hstep.advances
          rw [sectionsFrom, hlines]
          dsimp only
          rcases Nat.lt_or_ge place (sectionAt tables index first rest).2 with
            hwithin | hbehind
          · -- The section has the line as text, for it has no fences.
            have haccounted := hstep.accounted place line hplace hwithin hline
            cases haccounted with
            | @text part hpart hstart hstop =>
                have hkind := hkinds part (Option.mem_toList.mp hpart)
                rw [PlacedSection.textStart, hkind.2, if_neg Bool.false_ne_true] at hstart
                rw [PlacedSection.textStop, hkind.2, if_neg Bool.false_ne_true] at hstop
                exact ⟨part, List.mem_append_left _ hpart, hkind.1, hstart, by omega⟩
            | @opening part hpart hfence =>
                rw [(hkinds part (Option.mem_toList.mp hpart)).2] at hfence
                cases hfence
            | @closing part hpart hfence =>
                rw [(hkinds part (Option.mem_toList.mp hpart)).2] at hfence
                cases hfence
            | blank hblank =>
                obtain ⟨char, hchar, hshown⟩ := hshown
                exact absurd (hblank char hchar) (by rw [hshown]; exact Bool.false_ne_true)
          · obtain ⟨part, hpart, hfound⟩ := ih (by omega) hbehind
              fun between other hstart => hbetween between other (by omega)
            exact ⟨part, List.mem_append_right _ hpart, hfound⟩

variable (tables) in
/-- A line with something on it and no backticks in front. -/
def IsPlain (line : Text) : Prop :=
  startsFence line = false ∧ ∃ char ∈ line, tables.chars.isSpace char = false

/-- A block inside of which a slip shows: the first line is plain, and so is the line behind
each one that begins with backticks. -/
structure FencedBlock.Telling (block : FencedBlock tables) : Prop where
  first : ∃ line rest, block.inside = line :: rest ∧ IsPlain tables line
  behind : ∀ front line after, block.inside = front ++ line :: after → startsFence line = true →
    ∃ next rest, after = next :: rest ∧ IsPlain tables next

variable {later : List Place}

/-- A line inside a block is in no section of another kind. -/
theorem Separated.inside {sections : List PlacedSection}
    (hseparated : Separated index (block.places ++ later) sections) {offset : ℕ}
    (hoffset : offset < block.inside.length) :
    ¬∃ part ∈ sections, part.contentType ≠ .sourceCode ∧
      part.startLine ≤ index + block.before.length + 1 + offset ∧
      index + block.before.length + 1 + offset ≤ part.endLine := by
  rintro ⟨part, hpart, hkind, hstart, hstop⟩
  have hplace : (block.places ++ later)[block.before.length + 1 + offset]? = some .inside := by
    rw [FencedBlock.places, List.append_assoc, List.getElem?_append_right
        (by rw [List.length_map]; omega), List.length_map, Nat.add_assoc, Nat.add_sub_cancel_left,
      Nat.add_comm 1, List.cons_append, List.getElem?_cons_succ, List.append_assoc,
      List.getElem?_append_left (by rwa [List.length_map]), List.getElem?_map,
      List.getElem?_eq_getElem hoffset]
    rfl
  rw [Nat.add_assoc index, Nat.add_assoc index] at hstart hstop
  exact hkind (hseparated _ _ hplace part hpart hstart hstop)

theorem exists_first_fence (hline : line ∈ lines) (hfence : startsFence line = true) :
    ∃ front stop after, lines = front ++ stop :: after ∧
      (∀ other ∈ front, startsFence other = false) ∧ startsFence stop = true := by
  induction lines with
  | nil => exact absurd hline List.not_mem_nil
  | cons first rest ih =>
      cases hfirst : startsFence first with
      | true => exact ⟨[], first, rest, rfl, nofun, hfirst⟩
      | false =>
          rcases List.mem_cons.mp hline with rfl | hline
          · exact absurd hfence (by rw [hfirst]; exact Bool.false_ne_true)
          · obtain ⟨front, stop, after, rfl, hfront, hstop⟩ := ih hline
            exact ⟨first :: front, stop, after, rfl, List.forall_mem_cons.mpr ⟨hfirst, hfront⟩,
              hstop⟩

/-- Backticks inside a block end its section, and the line behind them is read as outside. -/
theorem not_separated_of_fence (htelling : block.Telling) {behind : List Text}
    (hlines : lines.drop (index + block.before.length) =
      block.opening :: (block.inside ++ block.closing :: behind))
    (hfuel : lines.length ≤ index + block.before.length + fuel)
    (hopening : (fenceLanguage tables.chars tables.patterns block.opening).isSome)
    (hline : line ∈ block.inside) (hfence : startsFence line = true) (found : List PlacedSection)
    (later : List Place) :
    ¬Separated index (block.places ++ later)
      (found ++ sectionsFrom tables lines fuel (index + block.before.length)) := by
  obtain ⟨word, hword⟩ := Option.isSome_iff_exists.mp hopening
  obtain ⟨front, stop, after, hinside, hfront, hstop⟩ := exists_first_fence hline hfence
  obtain ⟨next, rest, rfl, hnext, hshown⟩ := htelling.behind front stop after hinside hstop
  have htaken : ((block.inside ++ block.closing :: behind).takeWhile (!startsFence ·)) =
      front := by
    rw [hinside, List.append_assoc, takeWhile_append_of_head, List.takeWhile_eq_self_iff]
    · exact fun line hline => Bool.not_eq_true' .. ▸ hfront line hline
    · rintro _ ⟨⟩
      rw [hstop]
      rfl
  have hcut : (sectionAt tables (index + block.before.length) block.opening
      (block.inside ++ block.closing :: behind)).2 =
        index + block.before.length + 1 + (front.length + 1) := by
    rw [sectionAt, hword]
    dsimp only
    rw [htaken, Nat.add_assoc _ front.length]
  have hlength : front.length + 1 < block.inside.length := by
    rw [hinside, List.length_append, List.length_cons, List.length_cons]
    omega
  have hplace : lines[index + block.before.length + 1 + (front.length + 1)]? = some next := by
    have hbehind : (front ++ stop :: next :: rest)[front.length + 1]? = some next := by
      rw [List.getElem?_append_right (Nat.le_add_right _ 1), Nat.add_sub_cancel_left]
      rfl
    rw [Nat.add_assoc _ 1, Nat.add_comm 1, getElem?_of_drop hlines (by omega),
      Nat.add_sub_cancel_left, List.getElem?_cons_succ, List.getElem?_append_left hlength, hinside,
      hbehind]
  intro hseparated
  cases fuel with
  | zero =>
      have := (List.getElem?_eq_some_iff.mp hplace).1
      omega
  | succ fuel =>
      rw [sectionsFrom, hlines] at hseparated
      dsimp only at hseparated
      rw [hcut] at hseparated
      obtain ⟨part, hpart, hcovers⟩ := exists_section_of_line
        (show lines.length ≤ index + block.before.length + 1 + (front.length + 1) + fuel by omega)
        le_rfl hplace hshown
        fun between other hstart hlast hother => by
          obtain rfl := Nat.le_antisymm hlast hstart
          rw [hplace] at hother
          exact fenceLanguage_eq_none (Option.some.inj hother ▸ hnext)
      exact hseparated.inside hlength
        ⟨part, List.mem_append_right _ (List.mem_append_right _ hpart), hcovers⟩

/-- A block whose lines are in the right sections is followed, if slips show. -/
theorem followed_of_separated (htelling : block.Telling) {behind : List Text}
    (hlines : lines.drop index =
      block.before ++ block.opening :: (block.inside ++ block.closing :: behind))
    (hfuel : lines.length ≤ index + fuel)
    (hseparated : Separated index (block.places ++ later) (sectionsFrom tables lines fuel index)) :
    block.Followed behind := by
  obtain ⟨first, others, hinside, hfirst, hshown⟩ := htelling.first
  have hpositive : 0 < block.inside.length := by
    rw [hinside]
    exact Nat.succ_pos _
  have hmiddle : lines.drop (index + block.before.length) =
      block.opening :: (block.inside ++ block.closing :: behind) := by
    rw [← List.drop_drop, hlines, List.drop_left]
  have hfirstPlace : lines[index + block.before.length + 1]? = some first := by
    rw [getElem?_of_drop hmiddle (by omega), Nat.add_sub_cancel_left, List.getElem?_cons_succ,
      hinside]
    rfl
  have hopening : (fenceLanguage tables.chars tables.patterns block.opening).isSome := by
    by_contra hnone
    rw [Bool.not_eq_true, Option.isSome_eq_false_iff, Option.isNone_iff_eq_none] at hnone
    refine hseparated.inside hpositive
      (exists_section_of_line hfuel (by omega) hfirstPlace hshown ?_)
    intro between other hstart hstop hother
    rw [getElem?_of_drop hlines hstart] at hother
    rcases Nat.lt_or_ge (between - index) block.before.length with hbefore | hreached
    · rw [List.getElem?_append_left hbefore] at hother
      exact fenceLanguage_eq_none (block.before_outside other (List.mem_of_getElem? hother))
    rw [List.getElem?_append_right hreached] at hother
    rcases Nat.eq_zero_or_pos (between - index - block.before.length) with hzero | hone
    · rw [hzero] at hother
      exact Option.some.inj hother ▸ hnone
    · have hlast : between - index - block.before.length = 0 + 1 := by omega
      rw [hlast, List.getElem?_cons_succ, hinside] at hother
      exact fenceLanguage_eq_none (Option.some.inj hother ▸ hfirst)
  have hbehind : ∀ next ∈ (block.opening :: (block.inside ++ block.closing :: behind)).head?,
      (fenceLanguage tables.chars tables.patterns next).isSome := by
    rintro _ ⟨⟩
    exact hopening
  rcases sectionsFrom_between hbehind block.before_outside hlines hfuel with
    ⟨hstays, found, rest, hfound, hrest, -⟩ |
      ⟨-, found, rest, part, hfound, hrest, hpart, hkind, hstart, hend⟩
  · refine ⟨hopening, fun line hline => ?_, hstays⟩
    by_contra hfence
    rw [Bool.not_eq_false] at hfence
    rw [hfound] at hseparated
    exact absurd hseparated (not_separated_of_fence htelling hmiddle hrest hopening hline hfence
      found later)
  · -- JSON from outside has the first line, or it ends with the opening one.
    rw [hfound] at hseparated
    refine absurd ?_ (hseparated.inside hpositive)
    rcases Nat.lt_or_ge (index + block.before.length) part.endLine with hreaches | hends
    · exact ⟨part, List.mem_append_left _ hpart, hkind, by omega, by omega⟩
    · have hnext : part.endLine + 1 = index + block.before.length + 1 := by omega
      rw [hnext] at hrest ⊢
      obtain ⟨other, hother, hcovers⟩ := exists_section_of_line hrest le_rfl hfirstPlace hshown
        fun between other hstart hstop hother => by
          obtain rfl := Nat.le_antisymm hstop hstart
          rw [hfirstPlace] at hother
          exact fenceLanguage_eq_none (Option.some.inj hother ▸ hfirst)
      exact ⟨other, List.mem_append_right _ hother, hcovers⟩

theorem followedIn_of_separated (htelling : ∀ block ∈ blocks, block.Telling)
    (hlines : lines.drop index = Document.linesOf last blocks) (hfuel : lines.length ≤ index + fuel)
    (hseparated : Separated index
      (blocks.foldr (fun block behind => block.places ++ behind) (last.map fun _ => .outside))
      (sectionsFrom tables lines fuel index)) : Document.FollowedIn last blocks := by
  induction blocks generalizing fuel index with
  | nil => trivial
  | cons block blocks ih =>
      obtain ⟨hblock, hblocks⟩ := List.forall_mem_cons.mp htelling
      rw [linesOf_cons] at hlines
      have hfollowed := followed_of_separated hblock hlines hfuel hseparated
      obtain ⟨found, rest, hfound, hrest, hbehind, -⟩ :=
        sectionsFrom_block hfollowed hlines hfuel
      rw [hfound] at hseparated
      exact ⟨hfollowed, ih hblocks hbehind hrest hseparated.behind⟩

end

/-! ## Results -/

/-- Every line of a content is accounted for.  Where fenced blocks are well formed, code is in
sections of code and nothing else is, if the blocks can be followed, and if slips show only
then. -/
theorem sections_separated (tables : LineTables) (content : Text) :
    Accounts tables (splitLines content) 0 (splitIntoSections tables content) ∧
      ∀ document : Document tables, document.lines = splitLines content →
        (document.Followed →
          Separated 0 document.places (splitIntoSections tables content)) ∧
        ((∀ block ∈ document.blocks, block.Telling) →
          Separated 0 document.places (splitIntoSections tables content) →
            document.Followed) := by
  have hfuel : (splitLines content).length ≤ 0 + (splitLines content).length := by omega
  refine ⟨accounts_sectionsFrom hfuel, fun document hdocument => ?_⟩
  have hlines : (splitLines content).drop 0 = Document.linesOf document.last document.blocks :=
    hdocument.symm
  exact ⟨fun hfollowed => separated_linesOf document.last_outside hfollowed hlines hfuel,
    fun htelling => followedIn_of_separated htelling hlines hfuel⟩

/-- A block of one line, with a line in front and one behind. -/
def exampleDocument (info : Text) : Document asciiLineTables where
  blocks := [{
    before := [text "see"]
    info
    inside := [text "x"]
    closing := fence
    before_outside := by decide
    inside_open := by decide
    closing_bare := by decide }]
  last := [text "so"]
  last_outside := by decide

theorem sections_separated_word :
    (exampleDocument (text "py")).Followed ∧
      Separated 0 (exampleDocument (text "py")).places
        (splitIntoSections asciiLineTables (joinLines (exampleDocument (text "py")).lines)) := by
  have hlines : splitLines (joinLines (exampleDocument (text "py")).lines) =
      (exampleDocument (text "py")).lines := splitLines_joinLines (by decide) (by decide)
  have hfollowed : (exampleDocument (text "py")).Followed := by
    refine ⟨⟨by decide, by decide, ?_⟩, trivial⟩
    exact .text (by decide) (by decide) .done
  have htelling : ∀ block ∈ (exampleDocument (text "py")).blocks, block.Telling := by
    intro block hblock
    have hinside : ∀ line ∈ block.inside, startsFence line = false := by
      rw [List.mem_singleton.mp hblock]
      decide
    have hshown : ∃ char ∈ text "x", asciiLineTables.chars.isSpace char = false :=
      ⟨codePoint 'x', List.mem_singleton_self _, by decide⟩
    refine ⟨⟨text "x", [], ?_, by decide, hshown⟩, fun front line after hsplit hfence => ?_⟩
    · rw [List.mem_singleton.mp hblock]
    · have hline : line ∈ block.inside := by
        rw [hsplit]
        exact List.mem_append_right front List.mem_cons_self
      exact absurd hfence (Bool.not_eq_true _ ▸ hinside line hline)
  have hresult := (sections_separated asciiLineTables _).2 _ hlines.symm
  exact ⟨hresult.2 htelling (hresult.1 hfollowed), hresult.1 hfollowed⟩

/-- An info string that is no word makes code of the text behind the block. -/
theorem text_read_as_code :
    ¬∀ (tables : LineTables) (content : Text),
      Accounts tables (splitLines content) 0 (splitIntoSections tables content) ∧
        ∀ document : Document tables, document.lines = splitLines content →
          Separated 0 document.places (splitIntoSections tables content) := by
  intro hclaim
  have hlines : splitLines (joinLines (exampleDocument (text "c++")).lines) =
      (exampleDocument (text "c++")).lines := splitLines_joinLines (by decide) (by decide)
  have hseparated := (hclaim asciiLineTables _).2 _ hlines.symm
  have hcovers : ∃ part ∈ splitIntoSections asciiLineTables
      (joinLines (exampleDocument (text "c++")).lines),
      part.contentType = .sourceCode ∧ part.startLine ≤ 0 + 4 ∧ 0 + 4 ≤ part.endLine := by
    decide +kernel
  obtain ⟨part, hpart, hkind, hstart, hstop⟩ := hcovers
  exact hseparated 4 .outside rfl part hpart hstart hstop hkind

end Legroom.MixedContent
