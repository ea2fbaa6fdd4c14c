import Legroom.Transforms.LosslessInverses
import Legroom.Transforms.LosslessSections

/-!
# Markers in lossless mode

A marker is a part of one line.  The lines that a fold writes are parts of the lines that it
read, or they tell of repetitions and have no character that every marker has.
-/

namespace Legroom.LosslessRouter

open Python LosslessCompaction

/-! ## Parts of lines -/

/-- What may be a marker: it is within a line and has a character that every marker has. -/
structure Catchy (taken : Text) : Prop where
  newline_not_mem : newline ∉ taken
  exists_mem : ∃ char ∈ text "[<:", char ∈ taken

/-- Nothing in the output may be a marker but what is in the source. -/
def Keeps (source output : Text) : Prop :=
  ∀ taken, Catchy taken → taken <:+: output → taken <:+: source

def Unmarked (line : Text) : Prop := ∀ char ∈ text "[<:", char ∉ line

theorem Keeps.refl (content : Text) : Keeps content content := fun _ _ htaken => htaken

variable {source : Text}

theorem Keeps.trans {middle output : Text} (hfirst : Keeps source middle)
    (hsecond : Keeps middle output) : Keeps source output := fun taken hcatchy htaken =>
  hfirst taken hcatchy (hsecond taken hcatchy htaken)

theorem keeps_of_part {output : Text} (hpart : output <:+: source) :
    Keeps source output := fun _ _ htaken => htaken.trans hpart

variable {line : Text}

theorem keeps_of_unmarked (hline : Unmarked line) (source : Text) : Keeps source line := by
  intro taken hcatchy htaken
  obtain ⟨char, hchar, hmem⟩ := hcatchy.exists_mem
  exact absurd (htaken.mem hmem) (hline char hchar)

/-- What is within a line is on one side of a line end. -/
theorem infix_cut {taken left right : Text} (htaken : newline ∉ taken)
    (hpart : taken <:+: left ++ newline :: right) : taken <:+: left ∨ taken <:+: right := by
  obtain ⟨before, after, heq⟩ := hpart
  rw [List.append_assoc] at heq
  rcases List.append_eq_append_iff.mp heq with ⟨behind, hleft, hafter⟩ | ⟨behind, hbefore, hright⟩
  · rcases List.append_eq_append_iff.mp hafter with ⟨rest, hbehind, -⟩ | ⟨rest, htaken', hrest⟩
    · rw [hleft, hbehind, ← List.append_assoc]
      exact Or.inl (List.infix_append before taken rest)
    · cases rest with
      | nil =>
          rw [hleft, htaken', List.append_nil]
          exact Or.inl (List.suffix_append before behind).isInfix
      | cons char rest =>
          obtain ⟨rfl, -⟩ := List.cons.inj hrest
          rw [htaken'] at htaken
          exact absurd (List.mem_append_right behind List.mem_cons_self) htaken
  · cases behind with
    | nil =>
        cases taken with
        | nil => exact Or.inl List.nil_infix
        | cons char taken =>
            obtain ⟨rfl, -⟩ := List.cons.inj hright
            exact absurd List.mem_cons_self htaken
    | cons char behind =>
        rw [show right = behind ++ (taken ++ after) from (List.cons.inj hright).2,
          ← List.append_assoc]
        exact Or.inr (List.infix_append behind taken after)

theorem keeps_append {left right : Text} (hleft : Keeps source left) (hright : Keeps source right) :
    Keeps source (left ++ newline :: right) :=
  fun taken hcatchy htaken => (infix_cut hcatchy.newline_not_mem htaken).elim
    (hleft taken hcatchy) (hright taken hcatchy)

theorem keeps_nil (source : Text) : Keeps source [] :=
  keeps_of_part List.nil_infix

theorem joinLines_cons_cons (first second : Text) (lines : List Text) :
    joinLines (first :: second :: lines) = first ++ newline :: joinLines (second :: lines) := by
  rw [joinLines, List.intercalate_cons_cons, joinLines, List.append_assoc]
  rfl

variable {lines : List Text}

theorem keeps_joinLines (hlines : ∀ line ∈ lines, Keeps source line) :
    Keeps source (joinLines lines) := by
  induction lines with
  | nil => exact keeps_nil source
  | cons first lines ih =>
      obtain ⟨hfirst, hlines⟩ := List.forall_mem_cons.mp hlines
      cases lines with
      | nil =>
          rw [joinLines, List.intercalate_singleton]
          exact hfirst
      | cons second lines =>
          rw [joinLines_cons_cons]
          exact keeps_append hfirst (ih hlines)

theorem infix_joinLines (hline : line ∈ lines) :
    line <:+: joinLines lines := infix_intercalate [newline] hline

theorem joinLines_eq_join (content : Text) :
    join (splitKeepTrailing content).1 (splitKeepTrailing content).2 = content := by
  rw [splitKeepTrailing]
  split_ifs with hempty hlast
  · rw [hempty]
    rfl
  · obtain ⟨front, hfront⟩ := List.getLast?_eq_some_iff.mp hlast
    rw [join, joinLines_splitLines, if_pos rfl, hfront, List.dropLast_concat]
  · rw [join, joinLines_splitLines, if_neg Bool.false_ne_true, List.append_nil]

theorem keeps_join (hlines : ∀ line ∈ lines, Keeps source line) (hadTrailing : Bool) :
    Keeps source (join lines hadTrailing) := by
  rw [join]
  split_ifs
  · exact keeps_append (keeps_joinLines hlines) (keeps_nil source)
  · rw [List.append_nil]
    exact keeps_joinLines hlines

theorem infix_of_mem_splitKeepTrailing {content : Text}
    (hline : line ∈ (splitKeepTrailing content).1) : line <:+: content := by
  conv => rhs; rw [← joinLines_eq_join content, join]
  exact (infix_joinLines hline).trans (List.prefix_append _ _).isInfix

/-! ## Folds -/

section

variable {tables : CharTables}
variable {line : Text}

theorem unmarked_of_all
    (hline : line.all fun char => char ∉ text "[<:") : Unmarked line := fun char hchar hmem =>
      of_decide_eq_true (List.all_eq_true.mp hline char hmem) hchar
    

theorem unmarked_append {left right : Text} (hleft : Unmarked left) (hright : Unmarked right) :
    Unmarked (left ++ right) := fun char hchar hmem =>
  (List.mem_append.mp hmem).elim (hleft char hchar) (hright char hchar)

theorem unmarked_intText {value : ℤ} {digits : Text} (hdigits : intText value = some digits) :
    Unmarked digits := by
  have hdecimal (number : ℕ) : Unmarked (decimalText number) := by
    intro char hchar hmem
    have hspecial : ((text "[<:").all fun char => 57 < char.val) = true := by decide
    exact absurd (of_decide_eq_true (List.all_eq_true.mp hspecial _ hchar))
      (Nat.not_lt.mpr (digit_of_mem_decimalText hmem).2)
  simp only [intText] at hdigits
  split_ifs at hdigits
  · rw [← Option.some_inj.mp hdigits]
    exact @unmarked_append [codePoint '-'] _ (unmarked_of_all (by decide)) (hdecimal _)
  · rw [← Option.some_inj.mp hdigits]
    exact hdecimal _

variable {out : List Text}

theorem keeps_emitRun {count : ℕ} (hout : emitRun line count = some out) :
    ∀ emitted ∈ out, Keeps line emitted := by
  rw [emitRun] at hout
  split_ifs at hout
  · obtain ⟨digits, hdigits, rfl⟩ := Option.map_eq_some_iff.mp hout
    have hmarker : Unmarked (runMarker digits) :=
      unmarked_append (unmarked_append (unmarked_of_all (by decide)) (unmarked_intText hdigits))
        (unmarked_of_all (by decide))
    exact List.forall_mem_cons.mpr ⟨Keeps.refl line,
      List.forall_mem_singleton.mpr (keeps_of_unmarked hmarker line)⟩
  · rw [← Option.some_inj.mp hout]
    exact List.forall_mem_singleton.mpr (Keeps.refl line)

variable {source : Text}

theorem keeps_collapseFrom {count : ℕ} {rest : List Text} (hline : Keeps source line)
    (hrest : ∀ next ∈ rest, Keeps source next) (hout : collapseFrom line count rest = some out) :
    ∀ emitted ∈ out, Keeps source emitted := by
  induction rest generalizing line count out with
  | nil => exact fun emitted hemitted => hline.trans (keeps_emitRun hout emitted hemitted)
  | cons next rest ih =>
      obtain ⟨hnext, hrest⟩ := List.forall_mem_cons.mp hrest
      rw [collapseFrom] at hout
      split_ifs at hout
      · exact ih hline hrest hout
      · obtain ⟨first, hfirst, hout⟩ := Option.bind_eq_some_iff.mp hout
        obtain ⟨more, hmore, hout⟩ := Option.bind_eq_some_iff.mp hout
        rw [← Option.some_inj.mp hout]
        exact List.forall_mem_append.mpr
          ⟨fun emitted hemitted => hline.trans (keeps_emitRun hfirst emitted hemitted),
            ih hnext hrest hmore⟩

theorem keeps_collapseRuns {content out : Text} (hout : collapseRuns content = some out) :
    Keeps content out := by
  have hlines : ∀ line ∈ (splitKeepTrailing content).1, Keeps content line :=
    fun line hline => keeps_of_part (infix_of_mem_splitKeepTrailing hline)
  rw [collapseRuns] at hout
  cases hsplit : (splitKeepTrailing content).1 with
  | nil =>
      simp only [hsplit] at hout
      rw [← Option.some_inj.mp hout]
      exact Keeps.refl content
  | cons line rest =>
      simp only [hsplit] at hout
      rw [hsplit] at hlines
      obtain ⟨hline, hrest⟩ := List.forall_mem_cons.mp hlines
      obtain ⟨lines, hcollapsed, rfl⟩ := Option.map_eq_some_iff.mp hout
      exact keeps_join (keeps_collapseFrom hline hrest hcollapsed) _

theorem unmarked_blockFold {block : List Text} {distance : ℕ} {marker : Text}
    (hmarker : blockFold block distance = some (some marker)) : Unmarked marker := by
  rw [blockFold] at hmarker
  split_ifs at hmarker
  · obtain ⟨length, hlength, hmarker⟩ := Option.bind_eq_some_iff.mp hmarker
    obtain ⟨distance, hdistance, hmarker⟩ := Option.bind_eq_some_iff.mp hmarker
    have hmarker := Option.some_inj.mp hmarker
    split_ifs at hmarker
    rw [← Option.some_inj.mp hmarker]
    exact unmarked_append (unmarked_append (unmarked_append (unmarked_append
      (unmarked_of_all (by decide)) (unmarked_intText hlength)) (unmarked_of_all (by decide)))
        (unmarked_intText hdistance)) (unmarked_of_all (by decide))
  · exact absurd (Option.some_inj.mp hmarker).symm (Option.some_ne_none marker)

variable {lines : List Text}

theorem keeps_foldFrom (hlines : ∀ line ∈ lines, Keeps source line) {fuel index : ℕ}
    {positions : Positions} (hout : foldFrom lines fuel index positions = some out) :
    ∀ emitted ∈ out, Keeps source emitted := by
  induction fuel generalizing index positions out with
  | zero =>
      rw [foldFrom] at hout
      rw [← Option.some_inj.mp hout]
      exact fun emitted hemitted => absurd hemitted List.not_mem_nil
  | succ fuel ih =>
      rw [foldFrom] at hout
      cases hdrop : lines.drop index with
      | nil =>
          rw [hdrop] at hout
          rw [← Option.some_inj.mp hout]
          exact fun emitted hemitted => absurd hemitted List.not_mem_nil
      | cons line rest =>
          rw [hdrop] at hout
          dsimp only at hout
          obtain ⟨fold, hfold, hout⟩ := Option.bind_eq_some_iff.mp hout
          cases fold with
          | some marker =>
              obtain ⟨more, hmore, hout⟩ := Option.bind_eq_some_iff.mp hout
              rw [← Option.some_inj.mp hout]
              exact List.forall_mem_cons.mpr
                ⟨keeps_of_unmarked (unmarked_blockFold hfold) source, ih hmore⟩
          | none =>
              obtain ⟨more, hmore, hout⟩ := Option.bind_eq_some_iff.mp hout
              have hmem : line ∈ lines := List.mem_of_mem_drop (hdrop ▸ List.mem_cons_self)
              rw [← Option.some_inj.mp hout]
              exact List.forall_mem_cons.mpr ⟨hlines line hmem, ih hmore⟩

theorem keeps_foldRepeatedBlocks {content out : Text}
    (hout : foldRepeatedBlocks content = some out) : Keeps content out := by
  simp only [foldRepeatedBlocks] at hout
  split_ifs at hout
  · rw [← Option.some_inj.mp hout]
    exact Keeps.refl content
  · obtain ⟨lines, hfold, rfl⟩ := Option.map_eq_some_iff.mp hout
    exact keeps_join (keeps_foldFrom
      (fun line hline => keeps_of_part (infix_of_mem_splitKeepTrailing hline)) hfold) _

theorem keeps_headed {encode : Option Text → List Text → List Text} (hheaded : Headed encode)
    (hlines : ∀ line ∈ lines, Keeps source line) :
    ∀ emitted ∈ encode none lines, Keeps source emitted := by
  intro emitted hemitted
  obtain ⟨line, hline, hin⟩ := hheaded.exists_line hemitted
  exact (hlines line hline).trans (keeps_of_part hin)

variable (content : Text)

theorem keeps_searchHeading : Keeps content (searchHeading tables content) := by
  simp only [searchHeading]
  split_ifs
  · exact Keeps.refl content
  · exact keeps_join (keeps_headed (headed_searchHeadingLines tables)
      fun line hline => keeps_of_part (infix_of_mem_splitKeepTrailing hline)) _

theorem keeps_pathHeading : Keeps content (pathHeading tables content) := by
  simp only [pathHeading]
  split_ifs
  · exact Keeps.refl content
  · exact keeps_join (keeps_headed (headed_pathHeadingLines tables)
      fun line hline => keeps_of_part (infix_of_mem_splitKeepTrailing hline)) _

theorem keeps_diffStripIndex : Keeps content (diffStripIndex content) := by
  simp only [diffStripIndex]
  split_ifs
  · exact Keeps.refl content
  · exact keeps_join (fun line hline => keeps_of_part
      (infix_of_mem_splitKeepTrailing (List.mem_of_mem_filter hline))) _

/-- A fold has no marker that is not in the content, or in the content without colours. -/
theorem keeps_compactLossless (kind : Kind) :
    Keeps content (compactLossless tables content kind) ∨
      Keeps (stripAnsi content) (compactLossless tables content kind) := by
  have hreversible (reversible : ReversibleKind)
      (hencode : ∀ out, reversible.encode tables (reversible.baseline content) = some out →
        Keeps (reversible.baseline content) out) :
      Keeps content (compactLossless tables content reversible.kind) ∨
        Keeps (reversible.baseline content) (compactLossless tables content reversible.kind) := by
    rcases compactLossless_cases reversible content with hpassed | ⟨hfold, -, -⟩
    · rw [hpassed]
      exact Or.inl (Keeps.refl content)
    · exact Or.inr (hencode _ hfold)
  cases kind with
  | log => exact hreversible .log fun out hout => keeps_collapseRuns hout
  | search =>
      exact Or.inl ((hreversible .search fun out hout =>
        Option.some_inj.mp hout ▸ keeps_searchHeading content).elim id id)
  | paths =>
      exact Or.inl ((hreversible .paths fun out hout =>
        Option.some_inj.mp hout ▸ keeps_pathHeading content).elim id id)
  | text => exact Or.inl ((hreversible .text fun out hout => keeps_collapseRuns hout).elim id id)
  | config =>
      refine Or.inl ((hreversible .config fun out hout => ?_).elim id id)
      obtain ⟨collapsed, hcollapsed, hfold⟩ := Option.bind_eq_some_iff.mp hout
      exact (keeps_collapseRuns hcollapsed).trans (keeps_foldRepeatedBlocks hfold)
  | diff =>
      refine Or.inl ?_
      simp only [compactLossless]
      split_ifs
      · exact Keeps.refl content
      · exact keeps_diffStripIndex content
      · exact Keeps.refl content
  | other =>
      refine Or.inl ?_
      simp only [compactLossless]
      split_ifs
      · exact Keeps.refl content
      · exact Keeps.refl content

theorem keeps_losslessFirst (content : Text) (strategy : CompressionStrategy) :
    Keeps content (losslessFirst tables content strategy).1 ∨
      Keeps (stripAnsi content) (losslessFirst tables content strategy).1 := by
  rcases @losslessFirst_cases tables content strategy with hpassed | ⟨kind, hfold, -⟩
  · rw [hpassed]
    exact Or.inl (Keeps.refl content)
  · rw [hfold]
    exact keeps_compactLossless content kind

end

/-! ## Sections -/

section

variable {tables : CharTables} {patterns : Ccr.PatternTables}

theorem unmarked_language {line language : Text}
    (hlanguage : fenceLanguage tables patterns line = some language) : Unmarked language := by
  obtain ⟨rest, -, hread⟩ := Option.bind_eq_some_iff.mp hlanguage
  split_ifs at hread
  rw [← Option.some_inj.mp hread]
  intro char hchar hmem
  have hspecial : ((text "[<:").all fun char => char < 0x80 && !Ccr.isAsciiWord char) = true := by
    decide
  have hchar := List.all_eq_true.mp hspecial char hchar
  rw [Bool.and_eq_true, decide_eq_true_eq, Bool.not_eq_true'] at hchar
  have hword : patterns.isWord char = true := List.mem_takeWhile_imp hmem
  rw [patterns.isWord_ascii char hchar.1, hchar.2] at hword
  cases hword

/-- A section has lines of the content, and its language has no special character. -/
theorem section_of_sectioned {lines : List Text} {sections : List ContentSection}
    (hsections : Sectioned tables patterns lines sections) :
    ∀ original ∈ sections, (∃ own, own ⊆ lines ∧ original.content = joinLines own) ∧
      ∀ language ∈ original.language, Unmarked language := by
  induction hsections with
  | nil => exact fun original horiginal => absurd horiginal List.not_mem_nil
  | fence opening language body closing rest sections hopening hbody hclosing hrest ih =>
      refine List.forall_mem_cons.mpr ⟨⟨⟨body, ?_, rfl⟩, ?_⟩, fun original horiginal => ?_⟩
      · rw [List.append_assoc]
        exact fun line hline => List.mem_cons_of_mem _ (List.mem_append_left _ hline)
      · intro found hfound
        rw [← Option.some_inj.mp hfound]
        split_ifs
        · exact unmarked_of_all (by decide)
        · exact unmarked_language hopening
      · obtain ⟨⟨own, hown, hcontent⟩, hlanguage⟩ := ih original horiginal
        exact ⟨⟨own, fun line hline => List.mem_cons_of_mem _
          (List.mem_append_right _ (hown hline)), hcontent⟩, hlanguage⟩
  | plain own rest contentType sections hlines hrest ih =>
      refine List.forall_mem_cons.mpr ⟨⟨⟨own, ?_, rfl⟩, nofun⟩, fun original horiginal => ?_⟩
      · exact List.subset_append_left own rest
      · obtain ⟨⟨own', hown, hcontent⟩, hlanguage⟩ := ih original horiginal
        exact ⟨⟨own', fun line hline => List.mem_append_right _ (hown hline), hcontent⟩, hlanguage⟩
  | blank own rest sections hblank hrest ih =>
      intro original horiginal
      obtain ⟨⟨own', hown, hcontent⟩, hlanguage⟩ := ih original horiginal
      exact ⟨⟨own', fun line hline => List.mem_append_right _ (hown hline), hcontent⟩, hlanguage⟩

/-! ## Colours -/

def isParameter (char : CodePoint) : Bool := char = codePoint ';' ∨ (0x30 ≤ char ∧ char ≤ 0x39)

theorem afterAnsi_cons_cons (first second : CodePoint) (rest : Text) :
    afterAnsi (first :: second :: rest) =
      if first = escape ∧ second = codePoint '[' then
        match rest.dropWhile isParameter with
        | last :: after => if last = codePoint 'm' then some after else none
        | [] => none
      else none := rfl

variable {content : Text}

theorem length_lt_of_afterAnsi {after : Text} (hafter : afterAnsi content = some after) :
    after.length < content.length := by
  match content with
  | [] => cases hafter
  | [first] => cases hafter
  | first :: second :: rest =>
      rw [afterAnsi_cons_cons] at hafter
      split_ifs at hafter
      have hdrop := (List.dropWhile_sublist (l := rest) isParameter).length_le
      split at hafter
      · next last found heq =>
          split_ifs at hafter
          rw [← Option.some_inj.mp hafter]
          rw [heq, List.length_cons] at hdrop
          rw [List.length_cons, List.length_cons]
          omega
      · cases hafter

/-- A line end is not in a colour sequence. -/
theorem afterAnsi_append (content rest : Text) :
    afterAnsi (content ++ newline :: rest) =
      (afterAnsi content).map fun after => after ++ newline :: rest := by
  match content with
  | [] =>
      cases rest with
      | nil => rfl
      | cons char rest =>
          rw [List.nil_append, afterAnsi_cons_cons, if_neg fun hstarts => absurd hstarts.1 (by decide)]
          rfl
  | [first] =>
      rw [List.singleton_append, afterAnsi_cons_cons,
        if_neg fun hstarts => absurd hstarts.2 (by decide)]
      rfl
  | first :: second :: content =>
      rw [List.cons_append, List.cons_append, afterAnsi_cons_cons, afterAnsi_cons_cons]
      split_ifs with hstarts
      · rw [List.dropWhile_append]
        cases hdrop : content.dropWhile isParameter with
        | nil =>
            have hnewline : isParameter newline = false := by decide
            rw [List.isEmpty_nil, if_pos rfl, List.dropWhile_cons, hnewline]
            dsimp only [Bool.false_eq_true, if_false]
            rw [if_neg (by decide)]
            rfl
        | cons last after =>
            rw [List.isEmpty_cons, if_neg Bool.false_ne_true, List.cons_append]
            dsimp only
            split_ifs
            · rfl
            · rfl
      · rfl

/-- More fuel than characters makes no difference. -/
theorem stripAnsiFrom_eq {fuel : ℕ} (hfuel : content.length ≤ fuel) :
    stripAnsiFrom fuel content = stripAnsi content := by
  rw [stripAnsi]
  induction hlength : content.length using Nat.strong_induction_on generalizing fuel content with
  | _ length ih =>
      subst hlength
      cases content with
      | nil =>
          cases fuel with
          | zero => rfl
          | succ fuel => rfl
      | cons char rest =>
          obtain ⟨fuel, rfl⟩ := Nat.exists_eq_succ_of_ne_zero
            (Nat.ne_of_gt (Nat.lt_of_lt_of_le (Nat.succ_pos rest.length) hfuel))
          rw [List.length_cons, stripAnsiFrom, stripAnsiFrom]
          have hrest : rest.length ≤ fuel := Nat.le_of_succ_le_succ hfuel
          cases hafter : afterAnsi (char :: rest) with
          | none =>
              dsimp only
              rw [ih rest.length (Nat.lt_succ_self _) hrest rfl]
          | some after =>
              have hless := length_lt_of_afterAnsi hafter
              rw [List.length_cons] at hless
              dsimp only
              rw [ih after.length hless (Nat.le_trans (Nat.le_of_lt_succ hless) hrest) rfl,
                ← ih after.length hless (Nat.le_of_lt_succ hless) rfl]

theorem stripAnsi_cons (char : CodePoint) (content : Text) :
    stripAnsi (char :: content) =
      match afterAnsi (char :: content) with
      | some after => stripAnsi after
      | none => char :: stripAnsi content := by
  rw [stripAnsi, List.length_cons, stripAnsiFrom]
  cases hafter : afterAnsi (char :: content) with
  | none => rfl
  | some after =>
      exact stripAnsiFrom_eq (Nat.le_of_lt_succ (length_lt_of_afterAnsi hafter))

/-- Colours end within their line. -/
theorem stripAnsi_append (left right : Text) :
    stripAnsi (left ++ newline :: right) = stripAnsi left ++ newline :: stripAnsi right := by
  induction hlength : left.length using Nat.strong_induction_on generalizing left with
  | _ length ih =>
      subst hlength
      cases left with
      | nil =>
          have hnone : afterAnsi (newline :: right) = none := afterAnsi_append [] right
          rw [List.nil_append, stripAnsi_cons, hnone]
          rfl
      | cons char left =>
          have happend := afterAnsi_append (char :: left) right
          rw [List.cons_append] at happend
          rw [List.cons_append, stripAnsi_cons, happend, stripAnsi_cons]
          cases hafter : afterAnsi (char :: left) with
          | none =>
              dsimp only [Option.map_none]
              rw [ih left.length (Nat.lt_succ_self _) left rfl]
              rfl
          | some after =>
              dsimp only [Option.map_some]
              exact ih after.length (length_lt_of_afterAnsi hafter) after rfl

theorem stripAnsi_joinLines (lines : List Text) :
    stripAnsi (joinLines lines) = joinLines (lines.map stripAnsi) := by
  induction lines with
  | nil => rfl
  | cons first lines ih =>
      cases lines with
      | nil => rw [List.map_singleton, joinLines, joinLines, List.intercalate_singleton,
          List.intercalate_singleton]
      | cons second lines =>
          rw [joinLines_cons_cons, stripAnsi_append, ih]
          exact (joinLines_cons_cons _ _ _).symm

/-- Lines of a content have no marker that is not in the content, with or without colours. -/
theorem keeps_of_subset {own : List Text} (hown : own ⊆ splitLines content) :
    Keeps content (joinLines own) ∧ Keeps (stripAnsi content) (stripAnsi (joinLines own)) := by
  have hlines : joinLines (splitLines content) = content := joinLines_splitLines content
  constructor
  · refine keeps_joinLines fun line hline => keeps_of_part ?_
    rw [← hlines]
    exact infix_joinLines (hown hline)
  · rw [stripAnsi_joinLines, ← hlines, stripAnsi_joinLines]
    refine keeps_joinLines fun line hline => keeps_of_part ?_
    obtain ⟨origin, horigin, rfl⟩ := List.mem_map.mp hline
    exact infix_joinLines (List.mem_map_of_mem (hown horigin))

/-! ## Results -/

theorem keeps_emitted {original : ContentSection}
    (horiginal : original ∈ splitIntoSections tables patterns content) :
    ∀ taken, Catchy taken → taken <:+: (foldSection tables original).emitted →
      taken <:+: content ∨ taken <:+: stripAnsi content := by
  intro taken hcatchy htaken
  obtain ⟨⟨own, hown, hcontent⟩, hlanguage⟩ :=
    section_of_sectioned (sectioned_splitIntoSections content) original horiginal
  obtain ⟨hplain, hstripped⟩ := keeps_of_subset hown
  have hfolded : taken <:+: (foldSection tables original).folded := by
    rw [FoldedSection.emitted] at htaken
    have hfence : Unmarked fence := unmarked_of_all (by decide)
    have hkept : (foldSection tables original).original = original := rfl
    rw [hkept] at htaken
    cases hfound : original.language with
    | none =>
        rw [hfound] at htaken
        exact htaken
    | some language =>
        rw [hfound] at htaken
        have hlines : Keeps (foldSection tables original).folded
            ((fence ++ language) ++ newline ::
              ((foldSection tables original).folded ++ newline :: fence)) :=
          keeps_append (keeps_of_unmarked (unmarked_append hfence (hlanguage language hfound)) _)
            (keeps_append (Keeps.refl _) (keeps_of_unmarked hfence _))
        refine hlines taken hcatchy ?_
        simp only [List.append_assoc, List.singleton_append] at htaken ⊢
        exact htaken
  have hfold := @keeps_losslessFirst tables original.content
    (strategyFromDetectionType original.contentType)
  rw [hcontent] at hfold
  rcases hfold with hkeeps | hkeeps
  · refine Or.inl (hplain taken hcatchy (hkeeps taken hcatchy ?_))
    rw [← hcontent]
    exact hfolded
  · refine Or.inr (hstripped taken hcatchy (hkeeps taken hcatchy ?_))
    rw [← hcontent]
    exact hfolded

theorem infix_of_infix_reassembled {taken : Text} (hcatchy : Catchy taken) {texts : List Text}
    (htaken : taken <:+: [newline, newline].intercalate texts) :
    ∃ emitted ∈ texts, taken <:+: emitted := by
  induction texts with
  | nil =>
      obtain ⟨char, -, hmem⟩ := hcatchy.exists_mem
      exact absurd (htaken.mem hmem) List.not_mem_nil
  | cons first texts ih =>
      cases texts with
      | nil =>
          rw [List.intercalate_singleton] at htaken
          exact ⟨first, List.mem_cons_self, htaken⟩
      | cons second texts =>
          rw [List.intercalate_cons_cons, List.append_assoc, List.cons_append] at htaken
          rcases infix_cut hcatchy.newline_not_mem htaken with hfirst | hrest
          · exact ⟨first, List.mem_cons_self, hfirst⟩
          · rcases @infix_cut taken [] _ hcatchy.newline_not_mem hrest with hnone | hrest
            · obtain ⟨char, -, hmem⟩ := hcatchy.exists_mem
              exact absurd (hnone.mem hmem) List.not_mem_nil
            · obtain ⟨emitted, hemitted, hpart⟩ := ih hrest
              exact ⟨emitted, List.mem_cons_of_mem first hemitted, hpart⟩

/-- A content is passed, folded as a whole, or folded section by section. -/
inductive Arises (tables : CharTables) (patterns : Ccr.PatternTables) (content : Text) :
    RouterCompressionResult → Prop
  | passed : Arises tables patterns content ⟨content, .passed⟩
  | folded (strategy : CompressionStrategy) (folded : Text) (kind : Kind)
      (hfold : losslessFirst tables content strategy = (folded, some kind)) :
      Arises tables patterns content ⟨folded, .folded kind⟩
  | reassembled (sections : List FoldedSection)
      (hsections : sections = (splitIntoSections tables patterns content).map (foldSection tables)) :
      Arises tables patterns content
        ⟨[newline, newline].intercalate (sections.map FoldedSection.emitted), .reassembled sections⟩

theorem arises_compressPure (content : Text) (strategy : CompressionStrategy) :
    Arises tables patterns content (compressPure tables content strategy) := by
  rw [compressPure]
  split
  · next folded kind hfold => exact .folded strategy folded kind hfold
  · exact .passed

theorem arises_compressMixed (content : Text) :
    Arises tables patterns content (compressMixed tables patterns content) := by
  simp only [compressMixed]
  split_ifs
  · exact .passed
  · exact .reassembled _ rfl

variable {result : RouterCompressionResult}

theorem arises_unless_blank (hresult : Arises tables patterns content result) :
    Arises tables patterns content
      (if isBlank tables result.compressed then ⟨content, .passed⟩ else result) := by
  split_ifs
  · exact .passed
  · exact hresult

theorem arises_compress (config : RouterConfig) (detector : Detector) (content : Text) :
    Arises tables patterns content (compress tables patterns config detector content) := by
  have hresult (strategy : CompressionStrategy) : Arises tables patterns content
      (if strategy = .mixed then compressMixed tables patterns content
        else compressPure tables content strategy) := by
    split_ifs
    · exact arises_compressMixed content
    · exact arises_compressPure content strategy
  rw [compress]
  split
  · exact .passed
  · exact arises_unless_blank (hresult _)

/-- Nothing in the compressed text may be a marker but what is in the content. -/
theorem keeps_of_arises (hresult : Arises tables patterns content result) :
    ∀ taken, Catchy taken → taken <:+: result.compressed →
      taken <:+: content ∨ taken <:+: stripAnsi content := by
  intro taken hcatchy htaken
  cases hresult with
  | passed => exact Or.inl htaken
  | folded strategy folded kind hfold =>
      have hkeeps := @keeps_losslessFirst tables content strategy
      rw [hfold] at hkeeps
      exact hkeeps.imp (fun hkeeps => hkeeps taken hcatchy htaken)
        fun hkeeps => hkeeps taken hcatchy htaken
  | reassembled sections hsections =>
      obtain ⟨emitted, hemitted, hpart⟩ := infix_of_infix_reassembled hcatchy htaken
      obtain ⟨folded, hmem, rfl⟩ := List.mem_map.mp hemitted
      rw [hsections] at hmem
      obtain ⟨original, horiginal, rfl⟩ := List.mem_map.mp hmem
      exact keeps_emitted horiginal taken hcatchy hpart

/-- A text that one of the patterns for markers reads. -/
def IsMarker (patterns : Ccr.PatternTables) (taken : Text) : Prop :=
  ∃ pattern ∈ Ccr.markerPatterns patterns, ∃ groups, Regex.Spelled pattern taken groups

theorem newline_rejected :
    patterns.isDecimal newline = false ∧ patterns.isWord newline = false := by
  rw [patterns.isDecimal_ascii _ (by decide), patterns.isWord_ascii _ (by decide)]
  decide

theorem literalIgnoringCase_rejects {word : Text}
    (hword : word.all fun letter => !Ccr.matchesLetter letter newline) :
    ∀ piece ∈ Ccr.literalIgnoringCase word, piece.accepts newline = false := by
  intro piece hpiece
  obtain ⟨letter, hletter, rfl⟩ := List.mem_map.mp hpiece
  exact Bool.not_eq_true' _ ▸ List.all_eq_true.mp hword letter hletter

/-- No pattern goes beyond a line. -/
theorem pattern_rejects_newline : ∀ pattern ∈ Ccr.markerPatterns patterns,
    ∀ piece ∈ pattern, piece.accepts newline = false := by
  obtain ⟨hdecimal, hword⟩ := @newline_rejected patterns
  simp only [Ccr.markerPatterns, Ccr.standardPattern, Ccr.legacyPattern, Ccr.genericPattern,
    Ccr.ccrPattern, Ccr.originalPattern, List.forall_mem_cons, List.forall_mem_append]
  have hnil : ∀ piece ∈ ([] : List (Regex.Piece CodePoint)), piece.accepts newline = false := nofun
  refine ⟨⟨by decide, hdecimal, by decide, hword, Regex.literal_rejects (by decide), hdecimal,
    Regex.literal_rejects (by decide), by decide, by decide, hnil⟩, ⟨by decide, hdecimal, by decide, hword,
    Regex.literal_rejects (by decide), by decide, by decide, hnil⟩, ⟨by decide, by decide,
    literalIgnoringCase_rejects (by decide), by decide, literalIgnoringCase_rejects (by decide),
    by decide, by decide, hnil⟩, ⟨Regex.literal_rejects (by decide), by decide, rfl, hnil⟩,
    ⟨Regex.literal_rejects (by decide), by decide, hnil⟩, nofun⟩

/-- Every pattern has a bracket, an angle or a colon. -/
theorem exists_special_of_pattern : ∀ pattern ∈ Ccr.markerPatterns patterns,
    ∃ char ∈ text "[<:", Ccr.character char ∈ pattern := by
  simp only [Ccr.markerPatterns, List.forall_mem_cons]
  refine ⟨⟨codePoint '[', by decide, List.mem_cons_self⟩,
    ⟨codePoint '[', by decide, List.mem_cons_self⟩,
    ⟨codePoint '[', by decide, List.mem_cons_self⟩,
    ⟨codePoint '<', by decide, List.mem_append_left _ (Ccr.character_mem_literal (by decide))⟩,
    ⟨codePoint ':', by decide, List.mem_append_left _ (Ccr.character_mem_literal (by decide))⟩, nofun⟩

theorem catchy_of_isMarker {taken : Text} (hmarker : IsMarker patterns taken) : Catchy taken := by
  obtain ⟨pattern, hpattern, groups, hspelled⟩ := hmarker
  constructor
  · intro hnewline
    obtain ⟨piece, hpiece, haccepts⟩ :=
      Regex.exists_accepts_of_spelled hspelled newline hnewline
    rw [pattern_rejects_newline pattern hpattern piece hpiece] at haccepts
    cases haccepts
  · obtain ⟨char, hchar, hpiece⟩ := exists_special_of_pattern pattern hpattern
    exact ⟨char, hchar, Ccr.mem_of_spelled_character hpiece hspelled⟩

/-- In lossless mode the compressed text determines the content up to colours and `index` lines
once it is known which fold it is.  The sections have all lines but delimiters of fences and blank
runs and are determined in the same way, and no marker comes in but by taking out colours. -/
theorem compress_lossless (tables : CharTables) (patterns : Ccr.PatternTables)
    (config : RouterConfig) (detector : Detector) :
    (∀ left right, (compress tables patterns config detector left).compressed =
        (compress tables patterns config detector right).compressed →
      ((compress tables patterns config detector left).origin = .passed →
        (compress tables patterns config detector right).origin = .passed → left = right) ∧
      ∀ kind, (compress tables patterns config detector left).origin = .folded kind →
        (compress tables patterns config detector right).origin = .folded kind →
          Agree kind left right) ∧
    (∀ content sections,
      (compress tables patterns config detector content).origin = .reassembled sections →
        Sectioned tables patterns (splitLines content) (sections.map FoldedSection.original) ∧
        (compress tables patterns config detector content).compressed =
          [newline, newline].intercalate (sections.map FoldedSection.emitted) ∧
        ∀ other others, (compress tables patterns config detector other).origin =
            .reassembled others → ∀ first ∈ sections, ∀ second ∈ others,
          first.folded = second.folded → first.fold = second.fold →
            (first.fold = none → first.original.content = second.original.content) ∧
            ∀ kind, first.fold = some kind →
              Agree kind first.original.content second.original.content) ∧
    ∀ content taken, IsMarker patterns taken →
      taken <:+: (compress tables patterns config detector content).compressed →
        taken <:+: content ∨ taken <:+: stripAnsi content := by
  have harises (content : Text) :
      Arises tables patterns content (compress tables patterns config detector content) :=
    arises_compress config detector content
  refine ⟨fun left right hsame => ?_, fun content sections horigin => ?_,
    fun content taken hmarker htaken =>
      keeps_of_arises (harises content) taken (catchy_of_isMarker hmarker) htaken⟩
  · have hleft := harises left
    have hright := harises right
    generalize compress tables patterns config detector left = first at hsame hleft ⊢
    generalize compress tables patterns config detector right = second at hsame hright ⊢
    constructor
    · intro hfirst hsecond
      cases hleft with
      | passed =>
          cases hright with
          | passed => exact hsame
          | _ => cases hsecond
      | _ => cases hfirst
    · intro kind hfirst hsecond
      cases hleft with
      | folded strategy folded found hfold =>
          cases hright with
          | folded strategy' folded' found' hfold' =>
              cases hfirst
              cases hsecond
              obtain rfl : folded = folded' := hsame
              have hdetermines := (losslessFirst_determines (hfold.trans hfold'.symm)).2
              rw [hfold] at hdetermines
              exact hdetermines kind rfl
          | _ => cases hsecond
      | _ => cases hfirst
  · have hsections {content : Text} {sections : List FoldedSection}
        (horigin : (compress tables patterns config detector content).origin =
          .reassembled sections) :
        sections = (splitIntoSections tables patterns content).map (foldSection tables) ∧
          (compress tables patterns config detector content).compressed =
            [newline, newline].intercalate (sections.map FoldedSection.emitted) := by
      have hcontent := harises content
      generalize compress tables patterns config detector content = result at horigin hcontent ⊢
      cases hcontent with
      | reassembled found hfound =>
          cases horigin
          exact ⟨hfound, rfl⟩
      | _ => cases horigin
    obtain ⟨hown, hcompressed⟩ := hsections horigin
    refine ⟨?_, hcompressed, fun other others hother first hfirst second hsecond hfolded hfold => ?_⟩
    · have hmap : sections.map FoldedSection.original =
          splitIntoSections tables patterns content := by
        rw [hown, List.map_map]
        exact List.map_id _
      rw [hmap]
      exact sectioned_splitIntoSections content
    · rw [hown] at hfirst
      rw [(hsections hother).1] at hsecond
      obtain ⟨left, -, rfl⟩ := List.mem_map.mp hfirst
      obtain ⟨right, -, rfl⟩ := List.mem_map.mp hsecond
      exact losslessFirst_determines (Prod.ext hfolded hfold)

end

/-! ## Contents that meet -/

/-- A detector that finds mixed content where there is a fence, and else plain text. -/
def fenceDetector : Detector where
  isMixedContent := fun content => fence <:+: content
  detect := fun _ => .plainText
  isConfident := fun _ => false

def defaultConfig : RouterConfig := ⟨true, false⟩

def routed (content : Text) : RouterCompressionResult :=
  compress asciiTables Ccr.asciiPatternTables defaultConfig fenceDetector content

def repetition : Text := joinLines [repeatedLine, repeatedLine, repeatedLine]

def toldRepetition : Text := joinLines [repeatedLine, runMarker (text "3")]

/-- A run of lines is passed on like the text that tells of it, and a fence without a language like
one of an unknown language. -/
theorem contents_meet :
    (routed repetition).compressed = (routed toldRepetition).compressed ∧
    (routed (text "```\nx\n```\na.py:1:y")).compressed =
      (routed (text "```unknown\nx\n```\na.py:1:y")).compressed ∧
    diffStripIndex (stripAnsi repetition) ≠ diffStripIndex (stripAnsi toldRepetition) := by
  refine ⟨?_, ?_, ?_⟩
  · decide +kernel
  · decide +kernel
  · decide +kernel

/-- The result for a run of lines with its fold. -/
theorem compress_lossless_repetition :
    Agree .log repetition repetition ∧
      ∀ taken, IsMarker Ccr.asciiPatternTables taken →
        taken <:+: (compress asciiTables Ccr.asciiPatternTables defaultConfig fenceDetector
          repetition).compressed → taken <:+: repetition ∨ taken <:+: stripAnsi repetition := by
  have hall := compress_lossless asciiTables Ccr.asciiPatternTables defaultConfig fenceDetector
  have horigin : (routed repetition).origin = .folded .log := by
    decide +kernel
  exact ⟨(hall.1 repetition repetition rfl).2 .log horigin horigin, hall.2.2 repetition⟩

end Legroom.LosslessRouter
