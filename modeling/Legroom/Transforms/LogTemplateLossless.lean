import Legroom.Transforms.LogTemplateDecode

/-!
# Which logs are read back

The output of the transform loses line ends, the white space between the tokens of a block
and the difference between a header and a line that looks like one.
-/

namespace Legroom.Transforms

namespace LogTemplate

/-! ## Lines and line feeds -/

/-- What is behind the last line feed, if nothing is. -/
def openEnd (content : Text) : List Text :=
  if content = [] ∨ content.getLast? = some '\n' then [[]] else []

theorem openEnd_cons (char : Char) {rest : Text} (hrest : rest ≠ []) :
    openEnd (char :: rest) = openEnd rest := by
  obtain ⟨second, rest, rfl⟩ := List.exists_cons_of_ne_nil hrest
  rw [openEnd, openEnd, List.getLast?_cons_cons]
  simp

variable {content : Text}

theorem lines_eq_nil_iff : lines content = [] ↔ content = [] := by
  constructor
  · intro hlines
    induction content with
    | nil => rfl
    | cons char rest ih =>
        rw [lines] at hlines
        split_ifs at hlines with hfeed hreturn
        · rw [ih hlines] at hreturn
          cases hreturn.2
        · cases hrest : lines rest with
          | nil => rw [hrest] at hlines; cases hlines
          | cons line later => rw [hrest] at hlines; cases hlines
  · rintro rfl
    rfl

/-- The stretches between line feeds are the lines, some with a carriage return. -/
theorem ended_lines (content : Text) :
    List.Forall₂ Ended (lines content ++ openEnd content) (content.splitOn '\n') := by
  induction content with
  | nil => exact .cons (.inl rfl) .nil
  | cons char rest ih =>
      rw [lines, List.splitOn_cons_eq_if_modifyHead]
      by_cases hfeed : char = '\n'
      · rw [if_pos hfeed, if_pos (by simpa using hfeed)]
        have hend : openEnd (char :: rest) = openEnd rest := by
          by_cases hrest : rest = []
          · rw [hrest, hfeed]
            rfl
          · exact openEnd_cons char hrest
        rw [hend]
        exact .cons (.inl rfl) ih
      have hfeedEq : ¬(char == '\n') = true := by simpa using hfeed
      rw [if_neg hfeed, if_neg hfeedEq]
      by_cases hreturn : char = '\r' ∧ rest.head? = some '\n'
      · rw [if_pos hreturn]
        obtain ⟨rfl, hhead⟩ := hreturn
        obtain ⟨behind, rfl⟩ := List.head?_eq_some_iff.mp hhead
        rw [openEnd_cons _ (List.cons_ne_nil _ _)]
        have hsplit : ('\n' :: behind).splitOn '\n' = [] :: behind.splitOn '\n' := by
          rw [List.splitOn_cons_eq_if_modifyHead]
          exact if_pos rfl
        rw [hsplit] at ih ⊢
        rw [lines, if_pos rfl] at ih ⊢
        obtain ⟨-, hbehind⟩ := List.forall₂_cons.mp ih
        exact .cons (.inr rfl) hbehind
      · rw [if_neg hreturn]
        cases hlines : lines rest with
        | nil =>
            rw [lines_eq_nil_iff.mp hlines, openEnd, if_neg (by simpa using hfeed)]
            exact .cons (.inl rfl) .nil
        | cons line later =>
            have hrest : rest ≠ [] := by
              rintro rfl
              cases hlines
            rw [hlines] at ih
            rw [openEnd_cons char hrest]
            obtain ⟨raw, raws, hline, hlater, hsplit⟩ := List.forall₂_cons_left_iff.mp ih
            rw [hsplit, List.modifyHead_cons]
            refine .cons ?_ hlater
            exact hline.imp (congrArg (char :: ·)) (congrArg (char :: ·))

theorem exists_ended {lines raws : List Text} (hended : List.Forall₂ Ended lines raws)
    {line : Text} (hline : line ∈ lines) : ∃ raw ∈ raws, Ended line raw := by
  induction hended with
  | nil => exact absurd hline List.not_mem_nil
  | @cons first raw lines raws hfirst hended ih =>
      rcases List.mem_cons.mp hline with rfl | hline
      · exact ⟨raw, List.mem_cons_self, hfirst⟩
      · obtain ⟨found, hfound, hline⟩ := ih hline
        exact ⟨found, List.mem_cons_of_mem raw hfound, hline⟩

theorem newline_not_mem_lines {line : Text} (hline : line ∈ lines content) : '\n' ∉ line := by
  obtain ⟨raw, hraw, hended⟩ :=
    exists_ended (ended_lines content) (List.mem_append_left (openEnd content) hline)
  intro hnewline
  apply not_mem_of_mem_splitOn hraw
  rcases hended with rfl | rfl
  · exact hnewline
  · exact List.mem_append_left _ hnewline

/-! ## Rows -/

theorem linesText_eq (rows : List Text) : linesText rows = ['\n'].intercalate (rows ++ [[]]) := by
  induction rows with
  | nil => rfl
  | cons row rows ih =>
      have hne : rows ++ [[]] ≠ [] := by simp
      have happend := intercalate_append '\n' (List.cons_ne_nil row []) hne
      rw [List.intercalate_singleton] at happend
      rw [linesText, List.flatMap_cons, ← linesText, ih, List.cons_append]
      rw [List.append_assoc, List.singleton_append]
      exact happend.symm

theorem rows_ne_nil {items : List Item} (hitems : items ≠ []) (templateId : ℕ) :
    Item.rows templateId items ≠ [] := by
  obtain ⟨item, items, rfl⟩ := List.exists_cons_of_ne_nil hitems
  cases item with
  | line text => exact List.cons_ne_nil _ _
  | block template lines => exact List.cons_ne_nil _ _

variable (config : LogTemplateConfig)

/-- Nothing but the last line feed is taken off again. -/
theorem rewritten_eq (hcontent : content ≠ []) :
    rewritten config content =
      ['\n'].intercalate (mined config (lines content) ++ openEnd content) := by
  rw [rewritten]
  by_cases hend : content.getLast? = some '\n'
  · rw [if_pos hend, openEnd, if_pos (.inr hend), linesText_eq]
  · rw [if_neg hend, openEnd, if_neg (not_or.mpr ⟨hcontent, hend⟩), List.append_nil, linesText_eq]
    have hrows : mined config (lines content) ≠ [] := by
      rw [mined_eq]
      apply rows_ne_nil
      intro hitems
      have hlines := lines_items config (lines content)
      rw [hitems] at hlines
      exact hcontent (lines_eq_nil_iff.mp hlines.symm)
    rw [intercalate_append '\n' hrows (List.cons_ne_nil _ _), List.intercalate_singleton,
      if_pos List.getLast?_concat, List.dropLast_concat]

variable {template : Template} {constant : Text}

theorem mem_of_fits {tokens : List Text} (hfits : Fits template tokens)
    (hconstant : some constant ∈ template) : constant ∈ tokens := by
  induction hfits with
  | nil => exact absurd hconstant List.not_mem_nil
  | @cons slot token template tokens hslot hfits ih =>
      rcases List.mem_cons.mp hconstant with heq | hmem
      · rw [hslot constant heq.symm]
        exact List.mem_cons_self
      · exact List.mem_cons_of_mem token (ih hmem)

/-- The tokens of a template are tokens of its lines. -/
theorem exists_token {lines : List Text} (hblock : (Item.block template lines).WellFormed)
    (hconstant : some constant ∈ template) : ∃ line ∈ lines, constant ∈ tokenize line := by
  obtain ⟨hne, -, hfits⟩ := hblock
  obtain ⟨line, rest, rfl⟩ := List.exists_cons_of_ne_nil hne
  refine ⟨line, List.mem_cons_self, ?_⟩
  have hline := hfits line List.mem_cons_self
  exact mem_of_fits hline hconstant

theorem no_space_of_block {lines : List Text} (hblock : (Item.block template lines).WellFormed)
    (hconstant : some constant ∈ template) : ∀ char ∈ constant, isWhitespace char = false := by
  obtain ⟨line, -, htoken⟩ := exists_token hblock hconstant
  exact no_space_of_mem_tokenize htoken

theorem spaceless_of_block {lines : List Text} (hblock : (Item.block template lines).WellFormed) :
    Spaceless template :=
  fun _ hconstant hspace => Bool.noConfusion (no_space_of_block hblock hconstant ' ' hspace)

theorem newline_not_mem_spaced {words : List Text} (hwords : ∀ word ∈ words, '\n' ∉ word) :
    '\n' ∉ spaced words := by
  intro hnewline
  obtain heq | ⟨word, hword, hmem⟩ := mem_spaced hnewline
  · exact absurd heq (by decide)
  · exact hwords word hword hmem

variable (templateId : ℕ)

theorem newline_not_mem_header {lines : List Text}
    (hblock : (Item.block template lines).WellFormed) :
    '\n' ∉ header templateId template lines.length := by
  have hdecimal (value : ℕ) : '\n' ∉ decimal value :=
    fun hnewline => Bool.noConfusion (isDigit_of_mem_decimal hnewline)
  have hslots : '\n' ∉ spaced (template.map slotText) := by
    apply newline_not_mem_spaced
    rw [List.forall_mem_map]
    intro slot hslot
    cases slot with
    | none => decide
    | some constant =>
        exact fun hnewline => Bool.noConfusion (no_space_of_block hblock hslot '\n' hnewline)
  have hstart : '\n' ∉ headerStart := by decide
  have hcolon : '\n' ∉ headerColon := by decide
  have hcount : '\n' ∉ headerCount := by decide
  have hend : '\n' ∉ headerEnd := by decide
  simp only [header, List.mem_append, hdecimal, hslots, hstart, hcolon, hcount, hend, or_false,
    not_false_eq_true]

/-- No row has a line feed in it. -/
theorem newline_not_mem_rows {items : List Item} (hitems : ∀ item ∈ items, item.WellFormed)
    (hlines : ∀ line ∈ items.flatMap Item.lines, '\n' ∉ line) (templateId : ℕ) :
    ∀ row ∈ Item.rows templateId items, '\n' ∉ row := by
  induction items generalizing templateId with
  | nil => exact fun row hrow => absurd hrow List.not_mem_nil
  | cons item items ih =>
      obtain ⟨hitem, hrest⟩ := List.forall_mem_cons.mp hitems
      rw [List.flatMap_cons, List.forall_mem_append] at hlines
      cases item with
      | line text =>
          exact List.forall_mem_cons.mpr
            ⟨hlines.1 text List.mem_cons_self, ih hrest hlines.2 templateId⟩
      | block template lines =>
          rw [Item.rows, List.forall_mem_cons, List.forall_mem_append, List.forall_mem_map]
          refine ⟨newline_not_mem_header templateId hitem, ?_, ih hrest hlines.2 _⟩
          intro line _
          apply newline_not_mem_spaced
          intro token htoken hnewline
          exact Bool.noConfusion
            (no_space_of_mem_tokenize (mem_of_mem_variants htoken) '\n' hnewline)

/-! ## Lines that are read -/

def Newlineless (template : Template) : Prop :=
  ∀ constant, some constant ∈ template → '\n' ∉ constant

theorem newline_not_mem_fill {row line : Text} (htemplate : Newlineless template)
    (hrow : '\n' ∉ row) (hfill : fill template row = some line) : '\n' ∉ line := by
  obtain ⟨tokens, htokens, rfl⟩ := Option.map_eq_some_iff.mp hfill
  apply newline_not_mem_spaced
  intro token htoken hnewline
  rcases mem_of_fillSlots htokens token htoken with hslot | hvalue
  · exact htemplate token hslot hnewline
  · exact hrow (mem_of_mem_splitOnP hvalue '\n' hnewline)

theorem newlineless_of_readHeader {templateId : ℕ} {row : Text} (hrow : '\n' ∉ row)
    {found : Template × ℕ} (hread : readHeader templateId row = some found) :
    Newlineless found.1 := by
  intro constant hconstant hnewline
  obtain ⟨word, hword, hchars⟩ := (of_readHeader hread).2.2.2 constant hconstant
  exact hrow (mem_of_mem_splitOnP hword '\n' (hchars '\n' hnewline))

theorem newline_not_mem_decodeRows {rows : List Text} (hrows : ∀ row ∈ rows, '\n' ∉ row)
    {templateId left : ℕ} (htemplate : Newlineless template) {lines : List Text}
    (hdecode : decodeRows templateId template left rows = some lines) :
    ∀ line ∈ lines, '\n' ∉ line := by
  induction rows generalizing templateId left template lines with
  | nil =>
      cases left with
      | zero =>
          cases hdecode
          exact fun line hline => absurd hline List.not_mem_nil
      | succ left => cases hdecode
  | cons row rows ih =>
      obtain ⟨hrow, hrest⟩ := List.forall_mem_cons.mp hrows
      cases left with
      | zero =>
          rw [decodeRows] at hdecode
          cases hread : readHeader templateId row with
          | none =>
              rw [hread] at hdecode
              obtain ⟨later, hlater, rfl⟩ := Option.map_eq_some_iff.mp hdecode
              exact List.forall_mem_cons.mpr ⟨hrow, ih hrest htemplate hlater⟩
          | some found =>
              rw [hread] at hdecode
              exact ih hrest (newlineless_of_readHeader hrow hread) hdecode
      | succ left =>
          rw [decodeRows, Option.bind_eq_bind, Option.bind_eq_some_iff] at hdecode
          obtain ⟨line, hline, hlater⟩ := hdecode
          obtain ⟨later, hbehind, rfl⟩ := Option.map_eq_some_iff.mp hlater
          exact List.forall_mem_cons.mpr
            ⟨newline_not_mem_fill htemplate hrow hline, ih hrest htemplate hbehind⟩

/-- A text is read back when its rows are read as the stretches of the content between line
feeds. -/
theorem decode_intercalate_iff {rows : List Text} (hne : rows ≠ [])
    (hrows : ∀ row ∈ rows, '\n' ∉ row) (hcontent : content ≠ []) :
    decode (['\n'].intercalate rows) = some content ↔
      decodeRows 1 [] 0 rows = some (content.splitOn '\n') := by
  rw [decode, List.splitOn_intercalate '\n' hrows hne, Option.map_eq_some_iff]
  constructor
  · rintro ⟨lines, hlines, rfl⟩
    rw [hlines, List.splitOn_intercalate]
    · exact newline_not_mem_decodeRows hrows (fun _ hmem => absurd hmem List.not_mem_nil) hlines
    · rintro rfl
      exact hcontent rfl
  · intro hlines
    exact ⟨_, hlines, List.intercalate_splitOn '\n'⟩

/-! ## Texts that are read back -/

theorem rows_append_lines (items : List Item) (texts : List Text) :
    Item.rows templateId (items ++ texts.map .line) = Item.rows templateId items ++ texts := by
  induction items generalizing templateId with
  | nil =>
      have hrows := Item.rows_lines templateId texts []
      rw [List.append_nil] at hrows
      rw [List.nil_append, hrows]
      exact List.append_nil texts
  | cons item items ih =>
      cases item with
      | line text => exact congrArg (text :: ·) (ih templateId)
      | block template lines =>
          rw [List.cons_append, Item.rows, Item.rows, ih, List.cons_append, List.append_assoc]

theorem lines_append_lines (items : List Item) (texts : List Text) :
    (items ++ texts.map Item.line).flatMap Item.lines = items.flatMap Item.lines ++ texts := by
  rw [List.flatMap_append, List.flatMap_map]
  exact congrArg (items.flatMap Item.lines ++ ·) (List.flatMap_singleton' texts)

/-- Lines that are passed on are readable when none is taken for a header. -/
theorem readable_lines (texts : List Text) :
    Readable templateId (texts.map .line) ↔
      ∀ text ∈ texts, readHeader templateId text = none := by
  induction texts with
  | nil => exact iff_of_true trivial fun text htext => absurd htext List.not_mem_nil
  | cons text texts ih => rw [List.map_cons, Readable, ih, List.forall_mem_cons]

theorem readable_openEnd (items : List Item) (content : Text) :
    Readable templateId (items ++ (openEnd content).map .line) ↔ Readable templateId items := by
  induction items generalizing templateId with
  | nil =>
      rw [List.nil_append, readable_lines, openEnd]
      refine iff_of_true ?_ trivial
      split_ifs
      · exact List.forall_mem_singleton.mpr rfl
      · exact fun text htext => absurd htext List.not_mem_nil
  | cons item items ih =>
      cases item with
      | line text => rw [List.cons_append, Readable, Readable, ih]
      | block template lines => rw [List.cons_append, Readable, Readable, ih]

/-- A rewritten text is read back when its items are readable and no line ends in a carriage
return and a line feed. -/
theorem decode_rewritten_iff (hcontent : content ≠ []) :
    decode (rewritten config content) = some content ↔
      Readable 1 (items config (lines content)) ∧
        content.splitOn '\n' = lines content ++ openEnd content := by
  have hwellFormed := wellFormed_items config (lines content)
  have hlines := lines_items config (lines content)
  have hrows : ∀ row ∈ mined config (lines content) ++ openEnd content, '\n' ∉ row := by
    rw [List.forall_mem_append, mined_eq]
    constructor
    · apply newline_not_mem_rows hwellFormed
      rw [hlines]
      exact fun line hline => newline_not_mem_lines hline
    · rw [openEnd]
      split_ifs
      · exact List.forall_mem_singleton.mpr List.not_mem_nil
      · exact fun row hrow => absurd hrow List.not_mem_nil
  have hne : mined config (lines content) ++ openEnd content ≠ [] := by
    rw [mined_eq, ← rows_append_lines]
    apply rows_ne_nil
    intro hnil
    have hitems := congrArg (List.flatMap Item.lines) hnil
    rw [lines_append_lines, hlines, List.flatMap_nil, List.append_eq_nil_iff] at hitems
    exact hcontent (lines_eq_nil_iff.mp hitems.1)
  rw [rewritten_eq config hcontent, decode_intercalate_iff hne hrows hcontent, mined_eq,
    ← rows_append_lines, decodeRows_rows_iff, readable_openEnd, lines_append_lines, hlines]
  · rw [List.forall_mem_append, List.forall_mem_map]
    exact ⟨hwellFormed, fun text _ => trivial⟩
  · intro item hitem template texts heq
    subst heq
    rcases List.mem_append.mp hitem with hblock | hline
    · exact spaceless_of_block (hwellFormed _ hblock)
    · obtain ⟨text, -, htext⟩ := List.mem_map.mp hline
      cases htext
  · rw [lines_append_lines, hlines]
    exact ended_lines content

/-- A text that is returned as it is is read back when no line is taken for a header. -/
theorem decode_content_iff (hcontent : content ≠ []) :
    decode content = some content ↔ ∀ row ∈ content.splitOn '\n', readHeader 1 row = none := by
  have hrows : ∀ row ∈ content.splitOn '\n', '\n' ∉ row :=
    fun row hrow => not_mem_of_mem_splitOn hrow
  have hdecode := decode_intercalate_iff (List.splitOn_ne_nil '\n' content) hrows hcontent
  have hitems := rows_append_lines 1 [] (content.splitOn '\n')
  have hlines := lines_append_lines [] (content.splitOn '\n')
  rw [List.nil_append, Item.rows, List.nil_append] at hitems
  rw [List.nil_append, List.flatMap_nil, List.nil_append] at hlines
  rw [List.intercalate_splitOn] at hdecode
  rw [hdecode, ← readable_lines]
  have hitemLines := @List.forall_mem_map _ _ Item.line (content.splitOn '\n') Item.WellFormed
  have hread := @decodeRows_rows_iff ((content.splitOn '\n').map Item.line) (content.splitOn '\n')
    (hitemLines.mpr fun _ _ => trivial) (by simp)
    (by rw [hlines, List.forall₂_same]; exact fun _ _ => .inl rfl) 1
  rw [hitems, hlines] at hread
  rw [hread, and_iff_left rfl]

/-- When a log is read back from its output. -/
def Restored (config : LogTemplateConfig) (content : Text) : Prop :=
  if byteLen content ≤ byteLen (rewritten config content) then
    ∀ row ∈ content.splitOn '\n', readHeader 1 row = none
  else
    Readable 1 (items config (lines content)) ∧
      content.splitOn '\n' = lines content ++ openEnd content

theorem decode_output_iff {config : LogTemplateConfig} {result : ReformatOutput}
    (hresult : apply config content = .ok result) :
    decode result.output = some content ↔ Restored config content := by
  rw [apply] at hresult
  split_ifs at hresult with hempty hshort hlonger
  all_goals
    have hcontent : content ≠ [] := mt List.isEmpty_iff.mpr hempty
    cases hresult
  · rw [Restored, if_pos hlonger]
    exact decode_content_iff hcontent
  · rw [Restored, if_neg hlonger]
    exact decode_rewritten_iff config hcontent

/-! ## Line ends are lost -/

def wordLine : Text := ['a']

def feedLog (count : ℕ) : Text := (List.replicate count ['a', '\n']).flatten

def returnLog (count : ℕ) : Text := (List.replicate count ['a', '\r', '\n']).flatten

variable (count : ℕ)

theorem lines_feedLog : lines (feedLog count) = List.replicate count wordLine := by
  induction count with
  | zero => rfl
  | succ count ih =>
      change lines ('a' :: '\n' :: feedLog count) = wordLine :: List.replicate count wordLine
      rw [← ih]
      rfl

theorem lines_returnLog : lines (returnLog count) = List.replicate count wordLine := by
  induction count with
  | zero => rfl
  | succ count ih =>
      change lines ('a' :: '\r' :: '\n' :: returnLog count) =
        wordLine :: List.replicate count wordLine
      rw [← ih]
      rfl

variable (count : ℕ)

/-- A template without a slot that varies does not collapse. -/
theorem runItems_wordLines :
    runItems config ⟨List.replicate count wordLine, [some wordLine]⟩ =
      (List.replicate count wordLine).map .line := by
  rw [runItems, if_neg]
  rw [collapses, Bool.and_eq_true, not_and_or]
  right
  change ¬decide (0 < 1 - [some wordLine].countP Option.isSome) = true
  decide

theorem replicate_append_word (before count : ℕ) :
    List.replicate before wordLine ++ wordLine :: List.replicate count wordLine =
      List.replicate (before + (count + 1)) wordLine := by
  rw [← List.replicate_succ, List.replicate_append_replicate]

theorem rows_wordLines (templateId before count : ℕ) :
    Item.rows templateId (itemsFrom config
        (some ⟨List.replicate before wordLine, [some wordLine]⟩)
        (List.replicate count wordLine)) =
      List.replicate (before + count) wordLine := by
  have htokens : tokenize wordLine = [wordLine] := by decide
  induction count generalizing before with
  | zero =>
      have hrows := Item.rows_lines templateId (List.replicate before wordLine) []
      rw [List.append_nil] at hrows
      rw [List.replicate_zero, itemsFrom, Option.toList_some, List.flatMap_singleton,
        runItems_wordLines, hrows]
      exact List.append_nil _
  | succ count ih =>
      rw [List.replicate_succ, itemsFrom_extend (by decide), htokens]
      split_ifs
      · have hmerge : mergeIntoTemplate [some wordLine] [wordLine] = [some wordLine] := by decide
        have hlines : List.replicate before wordLine ++ [wordLine] =
            List.replicate (before + 1) wordLine := List.replicate_succ'.symm
        dsimp only
        rw [hmerge, hlines, ih, Nat.add_assoc, Nat.add_comm 1 count]
      · rw [runItems_wordLines, Item.rows_lines]
        have hstart : Run.start wordLine [wordLine] =
            ⟨List.replicate 1 wordLine, [some wordLine]⟩ := rfl
        rw [hstart, ih, Nat.add_comm 1 count, List.replicate_succ, replicate_append_word]

/-- Lines of one and the same word are passed on. -/
theorem mined_wordLines :
    mined config (List.replicate count wordLine) = List.replicate count wordLine := by
  rw [mined_eq, items]
  cases count with
  | zero => rfl
  | succ count =>
      have htokens : tokenize wordLine = [wordLine] := by decide
      have hrows := rows_wordLines config 1 1 count
      rw [List.replicate_succ, itemsFrom_start (by decide), htokens]
      rw [Nat.add_comm 1 count] at hrows
      exact hrows

theorem linesText_wordLines : linesText (List.replicate count wordLine) = feedLog count := by
  rw [linesText, List.flatMap_replicate]
  rfl

theorem getLast?_flatten_replicate {piece : Text} (hpiece : piece ≠ []) (count : ℕ) :
    (List.replicate (count + 1) piece).flatten.getLast? = piece.getLast? := by
  rw [List.replicate_succ', List.flatten_append, List.flatten_singleton,
    List.getLast?_append_of_ne_nil _ hpiece]

theorem rewritten_feedLog : rewritten config (feedLog (count + 1)) = feedLog (count + 1) := by
  rw [rewritten, lines_feedLog, mined_wordLines, linesText_wordLines]
  exact if_pos (getLast?_flatten_replicate (List.cons_ne_nil _ _) count)

theorem rewritten_returnLog : rewritten config (returnLog (count + 1)) = feedLog (count + 1) := by
  rw [rewritten, lines_returnLog, mined_wordLines, linesText_wordLines]
  exact if_pos (getLast?_flatten_replicate (List.cons_ne_nil _ _) count)

theorem byteLen_append (left right : Text) :
    byteLen (left ++ right) = byteLen left + byteLen right := by
  rw [byteLen, List.map_append, List.sum_append, ← byteLen, ← byteLen]

theorem byteLen_flatten_replicate (piece : Text) :
    byteLen (List.replicate count piece).flatten = count * byteLen piece := by
  induction count with
  | zero => exact (Nat.zero_mul _).symm
  | succ count ih =>
      rw [List.replicate_succ, List.flatten_cons, byteLen_append, ih, Nat.succ_mul, Nat.add_comm]

theorem byteLen_feedLog : byteLen (feedLog count) = count * 2 :=
  byteLen_flatten_replicate count ['a', '\n']

theorem byteLen_returnLog : byteLen (returnLog count) = count * 3 :=
  byteLen_flatten_replicate count ['a', '\r', '\n']

theorem apply_feedLog {config : LogTemplateConfig} {count : ℕ}
    (hcount : config.minLines ≤ count + 1) :
    apply config (feedLog (count + 1)) =
      .ok (.fromLengths ((count + 1) * 2) (feedLog (count + 1))) := by
  rw [apply, lines_feedLog, List.length_replicate, if_neg, if_neg (Nat.not_lt.mpr hcount),
    rewritten_feedLog, if_pos (Nat.le_refl _), byteLen_feedLog]
  exact Bool.false_ne_true

/-- Both line ends give the same output. -/
theorem apply_returnLog {config : LogTemplateConfig} {count : ℕ}
    (hcount : config.minLines ≤ count + 1) :
    apply config (returnLog (count + 1)) =
      .ok (.fromLengths ((count + 1) * 3) (feedLog (count + 1))) := by
  rw [apply, lines_returnLog, List.length_replicate, if_neg, if_neg (Nat.not_lt.mpr hcount),
    rewritten_returnLog, if_neg, byteLen_returnLog]
  · rw [byteLen_returnLog, byteLen_feedLog]
    omega
  · exact Bool.false_ne_true

theorem feedLog_ne_returnLog : feedLog (count + 1) ≠ returnLog (count + 1) := by
  intro heq
  have hlength := congrArg byteLen heq
  rw [byteLen_feedLog, byteLen_returnLog] at hlength
  omega

/-- Every text is rebuilt from its output. -/
def Lossless (config : LogTemplateConfig) (rebuild : Text → Option Text) : Prop :=
  ∀ content result, apply config content = .ok result → rebuild result.output = some content

theorem not_lossless (rebuild : Text → Option Text) : ¬Lossless config rebuild := by
  intro hlossless
  have hcount : config.minLines ≤ config.minLines + 1 := Nat.le_succ _
  have hfeed := hlossless _ _ (apply_feedLog hcount)
  have hreturn := hlossless _ _ (apply_returnLog hcount)
  exact feedLog_ne_returnLog _ (Option.some.inj (hfeed.symm.trans hreturn))

/-- Whatever the configuration, no decoder rebuilds every log.  The reader of headers and
rows rebuilds exactly the logs that are restored, and no output is longer than its log. -/
theorem not_lossless_restored_iff (config : LogTemplateConfig) :
    (∀ rebuild, ¬Lossless config rebuild) ∧
      ∀ content result, apply config content = .ok result →
        byteLen result.output ≤ byteLen content ∧
          (decode result.output = some content ↔ Restored config content) := by
  refine ⟨not_lossless config, fun content result hresult => ?_⟩
  exact ⟨byteLen_output_le hresult, decode_output_iff hresult⟩

/-- The configuration of the repository, whose threshold is two fifths. -/
def shippedConfig : LogTemplateConfig where
  minLines := 20
  minRun := 3
  similar := fun count len => 2 * len ≤ 5 * count
  minConstantTokens := 2

/-- Twenty lines with either line end have one output. -/
theorem shippedConfig_loses_lineEnds :
    apply shippedConfig (feedLog 20) = .ok ⟨feedLog 20, 0⟩ ∧
      apply shippedConfig (returnLog 20) = .ok ⟨feedLog 20, 20⟩ ∧
        feedLog 20 ≠ returnLog 20 ∧ ¬∃ rebuild, Lossless shippedConfig rebuild := by
  have hcount : shippedConfig.minLines ≤ 19 + 1 := by decide
  refine ⟨?_, ?_, feedLog_ne_returnLog 19, fun ⟨rebuild, hrebuild⟩ => ?_⟩
  · rw [apply_feedLog hcount]
    decide +kernel
  · rw [apply_returnLog hcount]
    decide +kernel
  · exact not_lossless shippedConfig rebuild hrebuild

def blockConfig : LogTemplateConfig := ⟨2, 2, fun _ _ => true, 1⟩

def blockWord : Text := "worker-started-with-configuration-of-the-cluster".toList

def blockLog : Text := blockWord ++ [' ', 'a', '\n'] ++ blockWord ++ [' ', 'b', '\n']

def blockResult : ReformatOutput :=
  .fromLengths (byteLen blockLog)
    (header 1 [some blockWord, none] 2 ++ ['\n', 'a', '\n', 'b', '\n'])

/-- Two lines collapse, and the reader gives them back. -/
theorem not_lossless_restored_iff_block :
    (∀ rebuild, ¬Lossless blockConfig rebuild) ∧ decode blockResult.output = some blockLog ∧
      Restored blockConfig blockLog := by
  have hresult : apply blockConfig blockLog = .ok blockResult := by decide +kernel
  have hdecode : decode blockResult.output = some blockLog := by decide +kernel
  obtain ⟨hlossless, houtputs⟩ := not_lossless_restored_iff blockConfig
  exact ⟨hlossless, hdecode, (houtputs blockLog _ hresult).2.mp hdecode⟩

end LogTemplate

end Legroom.Transforms
