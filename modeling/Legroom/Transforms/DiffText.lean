import Legroom.Transforms.DiffSelection

/-!
# The parts of a diff text

A diff text has files under their headers, and these have hunks under theirs.  The parser finds
the same parts, as long as no change in a hunk looks like a line of a file header.
-/

namespace Legroom.Transforms

namespace Diff

open LogTemplate (Text)

variable {F : Type*} {unicode : Unicode}

/-- A line that begins neither a file nor a hunk. -/
structure IsPlain (unicode : Unicode) (line : Text) : Prop where
  notFile : isDiffHeader line = false
  notHunk : isHunkHeader unicode line = false

structure HunkText (unicode : Unicode) where
  header : Text
  body : List Text
  isHeader : isHunkHeader unicode header = true
  plain : ∀ line ∈ body, IsPlain unicode line ∧ Diff.isBinary line = false

structure FileText (unicode : Unicode) where
  header : Text
  front : List Text
  hunks : List (HunkText unicode)
  isHeader : isDiffHeader header = true
  plain : ∀ line ∈ front, IsPlain unicode line
  binary : front.any Diff.isBinary = true → hunks = []

structure DiffText (unicode : Unicode) where
  pre : List Text
  files : List (FileText unicode)
  plain : ∀ line ∈ pre, isDiffHeader line = false

def HunkText.lines (hunk : HunkText unicode) : List Text := hunk.header :: hunk.body

def FileText.lines (file : FileText unicode) : List Text :=
  file.header :: (file.front ++ file.hunks.flatMap HunkText.lines)

def DiffText.lines (diff : DiffText unicode) : List Text :=
  diff.pre ++ diff.files.flatMap FileText.lines

/-- The lines of all hunks. -/
def DiffText.bodies (diff : DiffText unicode) : List Text :=
  diff.files.flatMap fun file => file.hunks.flatMap HunkText.body

/-! ## First characters -/

variable {line : Text} {word : String}

theorem head?_of_startsWith {char : Char} (hword : word.toList.head? = some char)
    (hline : startsWith line word = true) : line.head? = some char := by
  obtain ⟨after, rfl⟩ := of_decide_eq_true hline
  rw [List.head?_append, hword, Option.some_or]

theorem startsWith_of_literal {rest : Text} (hline : literal word line = some rest) :
    startsWith line word = true := by
  rw [literal] at hline
  split_ifs at hline with hprefix
  exact decide_eq_true hprefix

theorem startsWith_of_any {good : Text → Bool} (hline : (literal word line).any good = true) :
    startsWith line word = true := by
  cases hliteral : literal word line with
  | none =>
      rw [hliteral] at hline
      exact Bool.noConfusion hline
  | some rest => exact startsWith_of_literal hliteral

theorem head?_of_isDiffHeader (hline : isDiffHeader line = true) : line.head? = some 'd' := by
  rw [isDiffHeader, Bool.or_eq_true, Bool.or_eq_true] at hline
  rcases hline with (hgit | hcombined) | hcc
  · exact head?_of_startsWith (by decide) (startsWith_of_any hgit)
  · exact head?_of_startsWith (by decide) (startsWith_of_any hcombined)
  · exact head?_of_startsWith (by decide) (startsWith_of_any hcc)

theorem head?_of_hunkHeader {ats : String} {parents : ℕ} (hats : ats.toList.head? = some '@')
    (hline : (hunkHeader unicode ats parents line).isSome = true) : line.head? = some '@' := by
  cases hliteral : literal ats line with
  | none =>
      rw [hunkHeader, hliteral] at hline
      exact Bool.noConfusion hline
  | some text => exact head?_of_startsWith hats (startsWith_of_literal hliteral)

theorem head?_of_isHunkHeader (hline : isHunkHeader unicode line = true) :
    line.head? = some '@' := by
  rw [isHunkHeader, Bool.or_eq_true, Bool.or_eq_true] at hline
  rcases hline with (hone | htwo) | hthree
  · exact head?_of_hunkHeader (by decide) hone
  · exact head?_of_hunkHeader (by decide) htwo
  · exact head?_of_hunkHeader (by decide) hthree

theorem head?_of_isBinary (hline : Diff.isBinary line = true) : line.head? = some 'B' :=
  head?_of_startsWith (by decide) (startsWith_of_any hline)

theorem startsWith_append {longer : String} (hword : word.toList <+: longer.toList)
    (hline : startsWith line longer = true) : startsWith line word = true :=
  decide_eq_true (hword.trans (of_decide_eq_true hline))

/-- A test of lines with one first character fails on the lines with another one. -/
theorem eq_false_of_head? {test : Text → Bool} {tested : Char}
    (htest : test line = true → line.head? = some tested) (hline : line.head? ≠ some tested) :
    test line = false :=
  Bool.eq_false_iff.mpr fun htrue => hline (htest htrue)

theorem plain_of_head?_ne (hfile : line.head? ≠ some 'd') (hhunk : line.head? ≠ some '@') :
    IsPlain unicode line :=
  ⟨eq_false_of_head? head?_of_isDiffHeader hfile, eq_false_of_head? head?_of_isHunkHeader hhunk⟩

/-- The lines that a unified diff has in its hunks are plain. -/
theorem plain_of_head? (hline : line.head? ∈ [none, some ' ', some '+', some '-', some '\\']) :
    IsPlain unicode line ∧ Diff.isBinary line = false := by
  have hne : ∀ char, some char ∉ [none, some ' ', some '+', some '-', some '\\'] →
      line.head? ≠ some char := fun char hchar heq => hchar (heq ▸ hline)
  exact ⟨plain_of_head?_ne (hne 'd' (by decide)) (hne '@' (by decide)),
    eq_false_of_head? head?_of_isBinary (hne 'B' (by decide))⟩

/-! ## Hunks -/

/-- A line of a hunk that is no file header of the old or the new side, nor begins like one. -/
def IsCounted (line : Text) : Prop :=
  startsWith line "+++" = false ∧ startsWith line "---" = false

theorem IsCounted.not_isOldFile (hline : IsCounted line) : isOldFile line = false := by
  refine Bool.eq_false_iff.mpr fun hold => Bool.eq_false_iff.mp hline.2 ?_
  exact startsWith_append (by decide) (startsWith_of_any hold)

theorem IsCounted.not_isNewFile (hline : IsCounted line) : Diff.isNewFile line = false := by
  refine Bool.eq_false_iff.mpr fun hnew => Bool.eq_false_iff.mp hline.1 ?_
  exact startsWith_append (by decide) (startsWith_of_any hnew)

theorem header_push (hunk : DiffHunk F) (line : Text) : (hunk.push line).header = hunk.header := by
  rw [DiffHunk.push]
  split_ifs <;> rfl

theorem lines_push (hunk : DiffHunk F) (line : Text) :
    (hunk.push line).lines = hunk.lines ++ [line] := by
  rw [DiffHunk.push]
  split_ifs <;> rfl

theorem not_startsWith_minus (hplus : startsWith line "+" = true) :
    startsWith line "-" = false := by
  have hhead : line.head? = some '+' := head?_of_startsWith (by decide) hplus
  exact @eq_false_of_head? _ (startsWith · "-") '-' (head?_of_startsWith (by decide))
    (hhead ▸ by decide)

theorem counts_push (hunk : DiffHunk F) (hline : IsCounted line) :
    (hunk.push line).additions = hunk.additions + [line].countP (startsWith · "+") ∧
      (hunk.push line).deletions = hunk.deletions + [line].countP (startsWith · "-") := by
  rw [DiffHunk.push, hline.1, hline.2, Bool.not_false, Bool.and_true, Bool.and_true,
    List.countP_singleton, List.countP_singleton]
  by_cases hplus : startsWith line "+" = true
  · rw [if_pos hplus, if_pos hplus, not_startsWith_minus hplus]
    exact ⟨rfl, rfl⟩
  · rw [if_neg hplus, if_neg hplus]
    split_ifs <;> exact ⟨rfl, rfl⟩

theorem foldl_push (body : List Text) (hunk : DiffHunk F) :
    (body.foldl DiffHunk.push hunk).header = hunk.header ∧
      (body.foldl DiffHunk.push hunk).lines = hunk.lines ++ body := by
  induction body generalizing hunk with
  | nil => exact ⟨rfl, (List.append_nil _).symm⟩
  | cons line body ih =>
      obtain ⟨hheader, hlines⟩ := ih (hunk.push line)
      rw [header_push] at hheader
      rw [lines_push, List.append_assoc] at hlines
      exact ⟨hheader, hlines⟩

theorem counts_foldl_push (body : List Text) (hbody : ∀ line ∈ body, IsCounted line)
    (hunk : DiffHunk F) :
    (body.foldl DiffHunk.push hunk).additions =
        hunk.additions + body.countP (startsWith · "+") ∧
      (body.foldl DiffHunk.push hunk).deletions =
        hunk.deletions + body.countP (startsWith · "-") := by
  induction body generalizing hunk with
  | nil => exact ⟨rfl, rfl⟩
  | cons line body ih =>
      obtain ⟨hline, hbody⟩ := List.forall_mem_cons.mp hbody
      obtain ⟨hadditions, hdeletions⟩ := ih hbody (hunk.push line)
      rw [(counts_push hunk hline).1, Nat.add_assoc] at hadditions
      rw [(counts_push hunk hline).2, Nat.add_assoc] at hdeletions
      rw [← List.singleton_append, List.countP_append, List.countP_append]
      exact ⟨hadditions, hdeletions⟩

variable [Float64 F]

/-- The hunk that the parser makes of a text. -/
def HunkText.parsed (hunk : HunkText unicode) : DiffHunk F :=
  hunk.body.foldl DiffHunk.push (.start hunk.header)

theorem header_parsed (hunk : HunkText unicode) :
    (hunk.parsed : DiffHunk F).header = hunk.header :=
  (foldl_push hunk.body _).1

theorem lines_parsed (hunk : HunkText unicode) : (hunk.parsed : DiffHunk F).lines = hunk.body :=
  (foldl_push hunk.body _).2

theorem counts_parsed (hunk : HunkText unicode) (hbody : ∀ line ∈ hunk.body, IsCounted line) :
    (hunk.parsed : DiffHunk F).additions = hunk.body.countP (startsWith · "+") ∧
      (hunk.parsed : DiffHunk F).deletions = hunk.body.countP (startsWith · "-") := by
  obtain ⟨hadditions, hdeletions⟩ :=
    counts_foldl_push hunk.body hbody (DiffHunk.start hunk.header : DiffHunk F)
  exact ⟨hadditions.trans (Nat.zero_add _), hdeletions.trans (Nat.zero_add _)⟩

/-! ## Files -/

/-- What a file that is being read has of its lines. -/
structure Marked (unicode : Unicode) (header : Text) (binary : Bool) (file : DiffFile F) :
    Prop where
  header : file.header = header
  isBinary : file.isBinary = true → binary = true
  renameLines : ∀ line ∈ file.renameLines, IsPlain unicode line ∧ Diff.isBinary line = false
  oldFile : IsPlain unicode file.oldFile ∧ Diff.isBinary file.oldFile = false
  newFile : IsPlain unicode file.newFile ∧ Diff.isBinary file.newFile = false

omit [Float64 F] in
theorem marked_start (header : Text) :
    Marked unicode header false (DiffFile.start header : DiffFile F) :=
  ⟨rfl, id, fun _ hline => absurd hline List.not_mem_nil, plain_of_head? List.mem_cons_self,
    plain_of_head? List.mem_cons_self⟩

variable {header line : Text} {binary : Bool} {file : DiffFile F} {files : List (DiffFile F)}
variable {hunk : Option (DiffHunk F)} {pre : List Text}

theorem not_isBinary_of_startsWith {char : Char} (hword : word.toList.head? = some char)
    (hchar : char ≠ 'B') (hline : startsWith line word = true) : Diff.isBinary line = false := by
  refine eq_false_of_head? head?_of_isBinary ?_
  rw [head?_of_startsWith hword hline, Ne, Option.some_inj]
  exact hchar

omit [Float64 F] in
theorem Marked.mark (hfile : Marked unicode header binary file) (hline : IsPlain unicode line) :
    Marked unicode header (binary || Diff.isBinary line) (file.mark line) ∧
      (file.mark line).hunks = file.hunks := by
  have hbinary : file.isBinary = true → (binary || Diff.isBinary line) = true := fun hbinary => by
    rw [hfile.isBinary hbinary, Bool.true_or]
  rw [DiffFile.mark]
  split_ifs with hnew hdeleted hrename hline'
  · exact ⟨⟨hfile.header, hbinary, hfile.renameLines, hfile.oldFile, hfile.newFile⟩, rfl⟩
  · exact ⟨⟨hfile.header, hbinary, hfile.renameLines, hfile.oldFile, hfile.newFile⟩, rfl⟩
  · have hnotBinary : Diff.isBinary line = false := by
      simp only [Bool.or_eq_true] at hrename
      rcases hrename with ((hrename | hsimilar) | hcopy) | hdissimilar
      · exact not_isBinary_of_startsWith rfl (by decide) hrename
      · exact not_isBinary_of_startsWith rfl (by decide) hsimilar
      · exact not_isBinary_of_startsWith rfl (by decide) hcopy
      · exact not_isBinary_of_startsWith rfl (by decide) hdissimilar
    exact ⟨⟨hfile.header, hbinary, List.forall_mem_append.mpr ⟨hfile.renameLines,
      List.forall_mem_singleton.mpr ⟨hline, hnotBinary⟩⟩, hfile.oldFile, hfile.newFile⟩, rfl⟩
  · refine ⟨⟨hfile.header, fun _ => ?_, hfile.renameLines, hfile.oldFile, hfile.newFile⟩, rfl⟩
    rw [hline', Bool.or_true]
  · exact ⟨⟨hfile.header, hbinary, hfile.renameLines, hfile.oldFile, hfile.newFile⟩, rfl⟩

/-- A plain line belongs to the open file and, unless it names a side, to the open hunk. -/
theorem line_plain (hfile : Marked unicode header binary file) (hline : IsPlain unicode line)
    (files : List (DiffFile F)) (hunk : Option (DiffHunk F)) (pre : List Text) :
    ∃ file', Parse.line unicode ⟨files, some file, hunk, pre⟩ line =
        ⟨files, some file', if isOldFile line || Diff.isNewFile line then hunk
          else hunk.map (·.push line), pre⟩ ∧
      Marked unicode header (binary || Diff.isBinary line) file' ∧ file'.hunks = file.hunks := by
  obtain ⟨hmark, hhunks⟩ := hfile.mark hline
  rw [Parse.line, if_neg (Bool.eq_false_iff.mp hline.notFile)]
  dsimp only
  by_cases hold : isOldFile line = true
  · have hminus : startsWith line "--- " = true := startsWith_of_any hold
    have hside := not_isBinary_of_startsWith rfl (by decide) hminus
    rw [if_pos hold, hold, Bool.true_or, if_pos rfl]
    exact ⟨_, rfl, ⟨hmark.header, hmark.isBinary, hmark.renameLines, ⟨hline, hside⟩,
      hmark.newFile⟩, hhunks⟩
  · rw [if_neg hold, Bool.eq_false_iff.mpr hold, Bool.false_or]
    by_cases hnew : Diff.isNewFile line = true
    · have hplus : startsWith line "+++ " = true := startsWith_of_any hnew
      have hside := not_isBinary_of_startsWith rfl (by decide) hplus
      rw [if_pos hnew, if_pos hnew]
      exact ⟨_, rfl, ⟨hmark.header, hmark.isBinary, hmark.renameLines, hmark.oldFile,
        ⟨hline, hside⟩⟩, hhunks⟩
    · rw [if_neg hnew, if_neg hnew, if_neg (Bool.eq_false_iff.mp hline.notHunk)]
      exact ⟨_, rfl, hmark, hhunks⟩

theorem foldl_front {front : List Text} (hfile : Marked unicode header binary file)
    (hfront : ∀ line ∈ front, IsPlain unicode line) :
    ∃ file', front.foldl (Parse.line unicode) ⟨files, some file, none, pre⟩ =
        ⟨files, some file', none, pre⟩ ∧
      Marked unicode header (binary || front.any Diff.isBinary) file' ∧
      file'.hunks = file.hunks := by
  induction front generalizing binary file with
  | nil =>
      rw [List.any_nil, Bool.or_false]
      exact ⟨file, rfl, hfile, rfl⟩
  | cons line front ih =>
      obtain ⟨hline, hfront⟩ := List.forall_mem_cons.mp hfront
      obtain ⟨file', hstep, hmark, hhunks⟩ := line_plain hfile hline files none pre
      obtain ⟨file'', hrest, hmark', hhunks'⟩ := ih hmark hfront
      refine ⟨file'', ?_, ?_, hhunks'.trans hhunks⟩
      · rw [List.foldl_cons, hstep, Option.map_none, ite_self, hrest]
      · rw [List.any_cons, ← Bool.or_assoc]
        exact hmark'

theorem foldl_body {body : List Text} {hunk : DiffHunk F}
    (hfile : Marked unicode header binary file)
    (hbody : ∀ line ∈ body, IsPlain unicode line ∧ Diff.isBinary line = false)
    (hcounted : ∀ line ∈ body, IsCounted line) :
    ∃ file', body.foldl (Parse.line unicode) ⟨files, some file, some hunk, pre⟩ =
        ⟨files, some file', some (body.foldl DiffHunk.push hunk), pre⟩ ∧
      Marked unicode header binary file' ∧ file'.hunks = file.hunks := by
  induction body generalizing file hunk with
  | nil => exact ⟨file, rfl, hfile, rfl⟩
  | cons line body ih =>
      obtain ⟨⟨hline, hnotBinary⟩, hbody⟩ := List.forall_mem_cons.mp hbody
      obtain ⟨hline', hcounted⟩ := List.forall_mem_cons.mp hcounted
      obtain ⟨file', hstep, hmark, hhunks⟩ := line_plain hfile hline files (some hunk) pre
      rw [hnotBinary, Bool.or_false] at hmark
      rw [hline'.not_isOldFile, hline'.not_isNewFile] at hstep
      obtain ⟨file'', hrest, hmark', hhunks'⟩ := @ih file' (hunk.push line) hmark hbody hcounted
      refine ⟨file'', ?_, hmark', hhunks'.trans hhunks⟩
      rw [List.foldl_cons, hstep]
      exact hrest

omit [Float64 F] in
theorem mark_of_head? (file : DiffFile F) (hline : line.head? = some '@') :
    file.mark line = file := by
  have hnot : ∀ word : String, (∃ char, word.toList.head? = some char ∧ char ≠ '@') →
      startsWith line word = false := by
    rintro word ⟨char, hword, hchar⟩
    refine @eq_false_of_head? _ (startsWith · word) char (head?_of_startsWith hword) ?_
    rw [hline, Ne, Option.some_inj]
    exact hchar.symm
  have hbinary : Diff.isBinary line = false :=
    eq_false_of_head? head?_of_isBinary (hline ▸ by decide)
  rw [DiffFile.mark, hnot "new file mode" ⟨'n', by decide⟩,
    hnot "deleted file mode" ⟨'d', by decide⟩, hnot "rename " ⟨'r', by decide⟩,
    hnot "similarity " ⟨'s', by decide⟩, hnot "copy " ⟨'c', by decide⟩,
    hnot "dissimilarity " ⟨'d', by decide⟩, hbinary]
  rfl

theorem line_hunkHeader (hline : isHunkHeader unicode line = true) (file : DiffFile F)
    (files : List (DiffFile F)) (hunk : Option (DiffHunk F)) (pre : List Text) :
    Parse.line unicode ⟨files, some file, hunk, pre⟩ line =
      ⟨files, some { file with hunks := file.hunks ++ hunk.toList }, some (.start line), pre⟩ := by
  have hhead := head?_of_isHunkHeader hline
  have hfile : isDiffHeader line = false :=
    eq_false_of_head? head?_of_isDiffHeader (hhead ▸ by decide)
  have hold : isOldFile line = false := @eq_false_of_head? _ isOldFile '-'
    (fun hold => head?_of_startsWith (by decide) (startsWith_of_any hold)) (hhead ▸ by decide)
  have hnew : Diff.isNewFile line = false := @eq_false_of_head? _ Diff.isNewFile '+'
    (fun hnew => head?_of_startsWith (by decide) (startsWith_of_any hnew)) (hhead ▸ by decide)
  rw [Parse.line, if_neg (Bool.eq_false_iff.mp hfile)]
  dsimp only
  rw [mark_of_head? file hhead, if_neg (Bool.eq_false_iff.mp hold),
    if_neg (Bool.eq_false_iff.mp hnew), if_pos hline]
  rfl

theorem foldl_hunks {hunks : List (HunkText unicode)}
    (hfile : Marked unicode header binary file)
    (hcounted : ∀ line ∈ hunks.flatMap HunkText.body, IsCounted line) :
    ∃ file' hunk', (hunks.flatMap HunkText.lines).foldl (Parse.line unicode)
        ⟨files, some file, hunk, pre⟩ = ⟨files, some file', hunk', pre⟩ ∧
      Marked unicode header binary file' ∧
      file'.hunks ++ hunk'.toList = file.hunks ++ hunk.toList ++ hunks.map HunkText.parsed := by
  induction hunks generalizing file hunk with
  | nil => exact ⟨file, hunk, rfl, hfile, (List.append_nil _).symm⟩
  | cons text hunks ih =>
      rw [List.flatMap_cons, List.forall_mem_append] at hcounted
      have hopened : Marked unicode header binary
          { file with hunks := file.hunks ++ hunk.toList } :=
        ⟨hfile.header, hfile.isBinary, hfile.renameLines, hfile.oldFile, hfile.newFile⟩
      obtain ⟨file', hbody, hmark, hhunks⟩ := @foldl_body F unicode _ header binary _ files pre
        text.body (.start text.header) hopened text.plain hcounted.1
      obtain ⟨file'', hunk'', hrest, hmark', hhunks'⟩ := @ih file' (some text.parsed) hmark
        hcounted.2
      refine ⟨file'', hunk'', ?_, hmark', ?_⟩
      · rw [List.flatMap_cons, List.foldl_append, HunkText.lines, List.foldl_cons,
          line_hunkHeader text.isHeader, hbody]
        exact hrest
      · rw [hhunks', hhunks, List.map_cons]
        exact List.append_assoc (file.hunks ++ hunk.toList) [text.parsed] _

/-- A file of the parse has the hunks of its text, and no hunks if it is binary. -/
structure ParsedFile (text : FileText unicode) (file : DiffFile F) : Prop where
  marked : Marked unicode text.header (text.front.any Diff.isBinary) file
  hunks : file.hunks = text.hunks.map HunkText.parsed

theorem foldl_file (text : FileText unicode)
    (hcounted : ∀ line ∈ text.hunks.flatMap HunkText.body, IsCounted line) (state : Parse F) :
    ∃ file, ParsedFile text file ∧
      (text.lines.foldl (Parse.line unicode) state).closeFile =
        ⟨state.closeFile.files ++ [file], none, none, state.preDiffLines⟩ := by
  have hheader : Parse.line unicode state text.header =
      ⟨state.closeFile.files, some (.start text.header), none, state.preDiffLines⟩ := by
    rw [Parse.line, if_pos text.isHeader]
    rfl
  obtain ⟨file, hfront, hmark, hhunks⟩ := @foldl_front F unicode _ _ _ _ state.closeFile.files
    state.preDiffLines _ (marked_start text.header) text.plain
  obtain ⟨file', hunk, hbodies, hmark', hhunks'⟩ := @foldl_hunks F unicode _ _ _ _
    state.closeFile.files none state.preDiffLines _ hmark hcounted
  refine ⟨{ file' with hunks := file'.hunks ++ hunk.toList }, ⟨?_, ?_⟩, ?_⟩
  · rw [Bool.false_or] at hmark'
    exact ⟨hmark'.header, hmark'.isBinary, hmark'.renameLines, hmark'.oldFile, hmark'.newFile⟩
  · show file'.hunks ++ hunk.toList = _
    rw [hhunks', hhunks]
    rfl
  · rw [FileText.lines, List.foldl_cons, hheader, List.foldl_append, hfront, hbodies]
    rfl

theorem foldl_files {texts : List (FileText unicode)}
    (hcounted : ∀ text ∈ texts, ∀ line ∈ text.hunks.flatMap HunkText.body, IsCounted line)
    (state : Parse F) :
    ∃ files, List.Forall₂ ParsedFile texts files ∧
      ((texts.flatMap FileText.lines).foldl (Parse.line unicode) state).closeFile =
        ⟨state.closeFile.files ++ files, none, none, state.preDiffLines⟩ := by
  induction texts generalizing state with
  | nil =>
      refine ⟨[], List.Forall₂.nil, ?_⟩
      rw [List.append_nil]
      rfl
  | cons text texts ih =>
      obtain ⟨htext, htexts⟩ := List.forall_mem_cons.mp hcounted
      obtain ⟨file, hfile, hfirst⟩ := foldl_file text htext state
      set next := text.lines.foldl (Parse.line unicode) state with hnext
      obtain ⟨files, hfiles, hrest⟩ := ih htexts next
      refine ⟨file :: files, List.Forall₂.cons hfile hfiles, ?_⟩
      have hpre : next.closeFile.preDiffLines = state.preDiffLines := by
        rw [hfirst]
      rw [List.flatMap_cons, List.foldl_append, ← hnext, hrest, hfirst, List.append_assoc]
      exact congrArg (Parse.mk _ none none) hpre

theorem foldl_pre {lines : List Text} (hlines : ∀ line ∈ lines, isDiffHeader line = false)
    (pre : List Text) :
    lines.foldl (Parse.line unicode) (⟨[], none, none, pre⟩ : Parse F) =
      ⟨[], none, none, pre ++ lines⟩ := by
  induction lines generalizing pre with
  | nil => rw [List.append_nil]; rfl
  | cons line lines ih =>
      obtain ⟨hline, hlines⟩ := List.forall_mem_cons.mp hlines
      rw [List.foldl_cons, Parse.line, if_neg (Bool.eq_false_iff.mp hline)]
      dsimp only
      rw [ih hlines, List.append_assoc]
      rfl

/-- The parser finds the files and hunks of a text. -/
theorem parseDiff_lines (diff : DiffText unicode)
    (hcounted : ∀ line ∈ diff.bodies, IsCounted line) :
    ∃ files : List (DiffFile F), parseDiff unicode diff.lines = ⟨diff.pre, files⟩ ∧
      List.Forall₂ ParsedFile diff.files files := by
  have hfileCounted : ∀ text ∈ diff.files, ∀ line ∈ text.hunks.flatMap HunkText.body,
      IsCounted line := fun text htext line hline =>
    hcounted line (List.mem_flatMap.mpr ⟨text, htext, hline⟩)
  obtain ⟨files, hfiles, hparse⟩ := foldl_files hfileCounted
    (⟨[], none, none, diff.pre⟩ : Parse F)
  refine ⟨files, ?_, hfiles⟩
  rw [parseDiff, DiffText.lines, List.foldl_append, foldl_pre diff.plain, List.nil_append, hparse]
  rfl

end Diff

end Legroom.Transforms
