import Legroom.Lib.SplitOn
import Legroom.Transforms.DiffText

/-!
# Changes through the compression

Under the caps the output is a diff text again, with the same files, hunks and changes.  Only
lines of context and of the file headers go.
-/

namespace Legroom.Transforms

namespace Diff

open LogTemplate (Text)

variable {F : Type*} [Float64 F] {unicode : Unicode}

/-! ## Trimmed hunks -/

/-- The lines that are left of a hunk. -/
def trimmed (maxContext : ℕ) (lines : List Text) : List Text :=
  if lines.any isChange then keptLines maxContext lines else lines.take maxContext

variable (maxContext : ℕ)

omit [Float64 F] in
theorem header_reduceContext (hunk : DiffHunk F) :
    (reduceContext maxContext hunk).header = hunk.header := by
  rw [reduceContext]
  split_ifs <;> rfl

omit [Float64 F] in
theorem lines_reduceContext (hunk : DiffHunk F) :
    (reduceContext maxContext hunk).lines = trimmed maxContext hunk.lines := by
  rw [reduceContext, trimmed]
  split_ifs <;> rfl

theorem trimmed_sublist (lines : List Text) : (trimmed maxContext lines).Sublist lines := by
  rw [trimmed]
  split_ifs
  · exact thin_sublist _ lines
  · exact List.take_sublist maxContext lines

theorem filter_trimmed (lines : List Text) :
    (trimmed maxContext lines).filter isChange = lines.filter isChange := by
  rw [trimmed]
  split_ifs with hchange
  · exact filter_keptLines maxContext lines fun _ => id
  · have hnone : ∀ line ∈ lines, ¬isChange line = true := fun line hline hline' =>
      hchange (List.any_eq_true.mpr ⟨line, hline, hline'⟩)
    rw [List.filter_eq_nil_iff.mpr hnone, List.filter_eq_nil_iff]
    exact fun line hline => hnone line (List.mem_of_mem_take hline)

def HunkText.trim (maxContext : ℕ) (hunk : HunkText unicode) : HunkText unicode :=
  { hunk with
    body := trimmed maxContext hunk.body
    plain := fun line hline => hunk.plain line ((trimmed_sublist _ _).subset hline) }

/-! ## The same changes -/

structure HunkText.SameChanges (hunk kept : HunkText unicode) : Prop where
  header : kept.header = hunk.header
  changes : kept.body.filter isChange = hunk.body.filter isChange
  sublist : kept.body.Sublist hunk.body

structure FileText.SameChanges (file kept : FileText unicode) : Prop where
  header : kept.header = file.header
  hunks : List.Forall₂ HunkText.SameChanges file.hunks kept.hunks

structure DiffText.SameChanges (diff kept : DiffText unicode) : Prop where
  pre : kept.pre = diff.pre
  files : List.Forall₂ FileText.SameChanges diff.files kept.files

theorem HunkText.sameChanges_trim (hunk : HunkText unicode) :
    hunk.SameChanges (hunk.trim maxContext) :=
  ⟨rfl, filter_trimmed maxContext hunk.body, trimmed_sublist maxContext hunk.body⟩

/-! ## Files -/

/-- A file whose hunks have scores. -/
def DiffFile.scored (score : DiffHunk F → DiffHunk F) (file : DiffFile F) : DiffFile F :=
  { file with hunks := file.hunks.map score }

/-- What does not change the text of a hunk. -/
structure Scoring (score : DiffHunk F → DiffHunk F) : Prop where
  header : ∀ hunk, (score hunk).header = hunk.header
  lines : ∀ hunk, (score hunk).lines = hunk.lines
  additions : ∀ hunk, (score hunk).additions = hunk.additions
  deletions : ∀ hunk, (score hunk).deletions = hunk.deletions

theorem scoring_scoreHunk (contextWords bigrams : List Text) :
    Scoring (scoreHunk unicode contextWords bigrams : DiffHunk F → DiffHunk F) :=
  ⟨fun _ => rfl, fun _ => rfl, fun _ => rfl, fun _ => rfl⟩

variable {config : DiffCompressorConfig F} {score : DiffHunk F → DiffHunk F}
variable {text : FileText unicode} {file : DiffFile F}

theorem hunks_compressFile (hfile : ParsedFile text file)
    (hcap : text.hunks.length ≤ config.maxHunksPerFile) :
    (compressFile unicode config (file.scored score)).hunks =
      text.hunks.map fun hunk => reduceContext config.maxContextLines (score hunk.parsed) := by
  have hlength : (file.scored score).hunks.length ≤ config.maxHunksPerFile := by
    rw [DiffFile.scored, List.length_map, hfile.hunks, List.length_map]
    exact hcap
  rw [compressFile, selectHunks_of_length_le unicode hlength, DiffFile.scored, hfile.hunks,
    List.map_map, List.map_map]
  rfl

theorem flatMap_hunks (hscore : Scoring score) (maxContext : ℕ)
    (hunks : List (HunkText unicode)) :
    ((hunks.map fun hunk => reduceContext maxContext (score hunk.parsed)).flatMap fun hunk =>
        hunk.header :: hunk.lines) =
      (hunks.map (HunkText.trim maxContext)).flatMap HunkText.lines := by
  rw [List.flatMap_map, List.flatMap_map]
  apply List.flatMap_congr
  intro hunk _
  rw [header_reduceContext, lines_reduceContext, hscore.header, hscore.lines, header_parsed,
    lines_parsed]
  rfl

/-- The lines of a compressed file are those of a file with the same changes. -/
theorem exists_keptFile (hfile : ParsedFile text file) (hscore : Scoring score)
    (hcap : text.hunks.length ≤ config.maxHunksPerFile) :
    ∃ kept : FileText unicode, text.SameChanges kept ∧
      (compressFile unicode config (file.scored score)).format = kept.lines := by
  set result := compressFile unicode config (file.scored score) with hresult
  have hheader : result.header = text.header := hfile.marked.header
  set modeLine : List Text :=
    if result.isNewFile then ["new file mode 100644".toList]
    else if result.isDeletedFile then ["deleted file mode 100644".toList]
    else [] with hmodeLine
  have hmode : ∀ line ∈ modeLine, IsPlain unicode line ∧ Diff.isBinary line = false := by
    have hnew : IsPlain unicode "new file mode 100644".toList ∧
        Diff.isBinary "new file mode 100644".toList = false :=
      ⟨plain_of_head?_ne (by decide) (by decide), by decide⟩
    have hdeleted : IsPlain unicode "deleted file mode 100644".toList ∧
        Diff.isBinary "deleted file mode 100644".toList = false :=
      ⟨⟨by decide, eq_false_of_head? head?_of_isHunkHeader (by decide)⟩, by decide⟩
    rw [hmodeLine]
    split_ifs
    · exact List.forall_mem_singleton.mpr hnew
    · exact List.forall_mem_singleton.mpr hdeleted
    · exact fun line hline => absurd hline List.not_mem_nil
  have hfront : ∀ line ∈ result.renameLines ++ modeLine,
      IsPlain unicode line ∧ Diff.isBinary line = false :=
    List.forall_mem_append.mpr ⟨hfile.marked.renameLines, hmode⟩
  by_cases hbinary : result.isBinary = true
  · have hhunks : text.hunks = [] := text.binary (hfile.marked.isBinary hbinary)
    have hdiffer : IsPlain unicode "Binary files differ".toList :=
      plain_of_head?_ne (by decide) (by decide)
    refine ⟨⟨text.header, result.renameLines ++ modeLine ++ ["Binary files differ".toList], [],
      text.isHeader, List.forall_mem_append.mpr ⟨fun line hline => (hfront line hline).1,
        List.forall_mem_singleton.mpr hdiffer⟩, fun _ => rfl⟩, ⟨rfl, ?_⟩, ?_⟩
    · rw [hhunks]
      exact List.Forall₂.nil
    · rw [DiffFile.format, if_pos hbinary, hheader]
      exact congrArg (text.header :: ·) (List.append_nil _).symm
  · have hsides : ∀ line ∈ [result.oldFile, result.newFile].filter (· ≠ []),
        IsPlain unicode line ∧ Diff.isBinary line = false := by
      intro line hline
      rcases List.mem_pair.mp (List.mem_of_mem_filter hline) with rfl | rfl
      · exact hfile.marked.oldFile
      · exact hfile.marked.newFile
    have hall := List.forall_mem_append.mpr ⟨hfront, hsides⟩
    refine ⟨⟨text.header, result.renameLines ++ modeLine ++
      [result.oldFile, result.newFile].filter (· ≠ []),
      text.hunks.map (HunkText.trim config.maxContextLines), text.isHeader,
      fun line hline => (hall line hline).1, fun hany => ?_⟩, ⟨rfl, ?_⟩, ?_⟩
    · obtain ⟨line, hline, hline'⟩ := List.any_eq_true.mp hany
      exact absurd hline' (Bool.eq_false_iff.mp (hall line hline).2)
    · exact List.forall₂_map_right_iff.mpr
        (List.forall₂_same.mpr fun hunk _ => hunk.sameChanges_trim _)
    · have hhunks : result.hunks = _ := hunks_compressFile hfile hcap
      rw [DiffFile.format, if_neg hbinary, hheader, hhunks, flatMap_hunks hscore]
      rfl

variable {texts : List (FileText unicode)} {files : List (DiffFile F)}

theorem exists_kept (hfiles : List.Forall₂ ParsedFile texts files) (hscore : Scoring score)
    (hcap : ∀ text ∈ texts, text.hunks.length ≤ config.maxHunksPerFile) :
    ∃ kept : List (FileText unicode), List.Forall₂ FileText.SameChanges texts kept ∧
      ((files.map (DiffFile.scored score)).map (compressFile unicode config)).flatMap
        DiffFile.format = kept.flatMap FileText.lines := by
  induction hfiles with
  | nil => exact ⟨[], List.Forall₂.nil, rfl⟩
  | @cons text file texts files hfile _ ih =>
      obtain ⟨htext, htexts⟩ := List.forall_mem_cons.mp hcap
      obtain ⟨first, hfirst, hlines⟩ := exists_keptFile hfile hscore htext
      obtain ⟨kept, hkept, hrest⟩ := ih htexts
      refine ⟨first :: kept, List.Forall₂.cons hfirst hkept, ?_⟩
      rw [List.map_cons, List.map_cons, List.flatMap_cons, List.flatMap_cons, hlines, hrest]

/-! ## Counts -/

theorem totals_scored (hfile : ParsedFile text file) (hscore : Scoring score)
    (hcounted : ∀ line ∈ text.hunks.flatMap HunkText.body, IsCounted line) :
    (file.scored score).totalAdditions =
        (text.hunks.flatMap HunkText.body).countP (startsWith · "+") ∧
      (file.scored score).totalDeletions =
        (text.hunks.flatMap HunkText.body).countP (startsWith · "-") := by
  have hbody : ∀ hunk ∈ text.hunks, ∀ line ∈ hunk.body, IsCounted line :=
    fun hunk hhunk line hline => hcounted line (List.mem_flatMap.mpr ⟨hunk, hhunk, hline⟩)
  rw [DiffFile.totalAdditions, DiffFile.totalDeletions, DiffFile.scored, hfile.hunks,
    List.map_map, List.map_map, List.map_map, List.map_map, List.countP_flatMap,
    List.countP_flatMap]
  refine ⟨congrArg List.sum (List.map_congr_left fun hunk hhunk => ?_),
    congrArg List.sum (List.map_congr_left fun hunk hhunk => ?_)⟩
  · exact (hscore.additions hunk.parsed).trans (counts_parsed hunk (hbody hunk hhunk)).1
  · exact (hscore.deletions hunk.parsed).trans (counts_parsed hunk (hbody hunk hhunk)).2

theorem totals_files (hfiles : List.Forall₂ ParsedFile texts files) (hscore : Scoring score)
    (hcounted : ∀ line ∈ texts.flatMap fun text => text.hunks.flatMap HunkText.body,
      IsCounted line) :
    ((files.map (DiffFile.scored score)).map DiffFile.totalAdditions).sum =
        (texts.flatMap fun text => text.hunks.flatMap HunkText.body).countP (startsWith · "+") ∧
      ((files.map (DiffFile.scored score)).map DiffFile.totalDeletions).sum =
        (texts.flatMap fun text => text.hunks.flatMap HunkText.body).countP (startsWith · "-") := by
  induction hfiles with
  | nil => exact ⟨rfl, rfl⟩
  | @cons text file texts files hfile _ ih =>
      rw [List.flatMap_cons, List.forall_mem_append] at hcounted
      obtain ⟨hadditions, hdeletions⟩ := totals_scored hfile hscore hcounted.1
      obtain ⟨hadditions', hdeletions'⟩ := ih hcounted.2
      simp only [List.map_cons, List.sum_cons, List.flatMap_cons, List.countP_append]
      exact ⟨congrArg₂ (· + ·) hadditions hadditions', congrArg₂ (· + ·) hdeletions hdeletions'⟩

theorem hunksRemoved_eq_zero (hfiles : List.Forall₂ ParsedFile texts files)
    (hcap : ∀ text ∈ texts, text.hunks.length ≤ config.maxHunksPerFile) :
    (((files.map (DiffFile.scored score)).zip
      ((files.map (DiffFile.scored score)).map (compressFile unicode config))).map
        fun (file, kept) => file.hunks.length - kept.hunks.length).sum = 0 := by
  induction hfiles with
  | nil => rfl
  | @cons text file texts files hfile _ ih =>
      obtain ⟨htext, htexts⟩ := List.forall_mem_cons.mp hcap
      have hlength : (file.scored score).hunks.length -
          (compressFile unicode config (file.scored score)).hunks.length = 0 := by
        rw [hunks_compressFile hfile htext, DiffFile.scored, hfile.hunks]
        simp only [List.length_map, Nat.sub_self]
      simp only [List.map_cons, List.zip_cons_cons, List.sum_cons]
      rw [hlength, ih htexts]

/-! ## The compression -/

variable (unicode)
variable (md5Hex24 : Text → Text)
variable (config : DiffCompressorConfig F)

theorem compressWithStore_passThrough {content : Text} (context : Text)
    (hpass : (content.splitOn '\n').length < config.minLinesForCcr ∨
      (parseDiff unicode (content.splitOn '\n') : ParsedDiff F).files = []) :
    (compressWithStore unicode md5Hex24 config content context).1 =
      passThroughResult content (content.splitOn '\n').length := by
  rw [compressWithStore]
  dsimp only
  rw [if_pos hpass]

/-- The output of a diff that is not passed through. -/
theorem compressed_compressWithStore {content : Text} (context : Text)
    (hpass : ¬((content.splitOn '\n').length < config.minLinesForCcr ∨
      (parseDiff unicode (content.splitOn '\n') : ParsedDiff F).files = [])) :
    let parsed : ParsedDiff F := parseDiff unicode (content.splitOn '\n')
    let files := selectFiles config.maxFiles (scoreHunks unicode parsed.files context)
    let compressed := files.map (compressFile unicode config)
    let result := (compressWithStore unicode md5Hex24 config content context).1
    result.additions = (files.map DiffFile.totalAdditions).sum ∧
      result.deletions = (files.map DiffFile.totalDeletions).sum ∧
      ∃ pointer, result.compressed = ['\n'].intercalate
          (formatLines parsed.preDiffLines compressed compressed.length result.additions
            result.deletions ((files.zip compressed).map fun (file, kept) =>
              file.hunks.length - kept.hunks.length).sum) ++ pointer ∧
        (pointer = [] ∨ ∃ original count key,
          pointer = '\n' :: retrievalMarker original count key) := by
  intro parsed files compressed result
  have hresult : result = (compressWithStore unicode md5Hex24 config content context).1 := rfl
  rw [compressWithStore] at hresult
  dsimp only at hresult
  rw [if_neg hpass] at hresult
  split_ifs at hresult
  · rw [hresult]
    exact ⟨rfl, rfl, _, rfl, .inr ⟨_, _, _, rfl⟩⟩
  · rw [hresult]
    exact ⟨rfl, rfl, [], (List.append_nil _).symm, .inl rfl⟩

/-- A diff text under the caps comes out with the changes it has, and with their numbers, if none
of them begins like the name of a side.  A short one, or one without a file header, comes out as it
is, without numbers. -/
theorem compress_keeps_changes (md5Hex24 : Text → Text) (config : DiffCompressorConfig F)
    (content context : Text) (diff : DiffText unicode)
    (hdiff : content.splitOn '\n' = diff.lines) (hfiles : diff.files.length ≤ config.maxFiles)
    (hhunks : ∀ file ∈ diff.files, file.hunks.length ≤ config.maxHunksPerFile) :
    let result := (compressWithStore unicode md5Hex24 config content context).1
    (config.minLinesForCcr ≤ diff.lines.length → diff.files ≠ [] →
      (∀ line ∈ diff.bodies, IsCounted line) →
      result.additions = diff.bodies.countP (startsWith · "+") ∧
        result.deletions = diff.bodies.countP (startsWith · "-") ∧
        ∃ (kept : DiffText unicode) (pointer : Text), diff.SameChanges kept ∧
          result.compressed = ['\n'].intercalate (kept.lines ++
            [summary diff.files.length result.additions result.deletions 0]) ++ pointer ∧
          (pointer = [] ∨ ∃ original count key,
            pointer = '\n' :: retrievalMarker original count key)) ∧
    (diff.lines.length < config.minLinesForCcr ∨ diff.files = [] →
      result.compressed = content ∧ result.additions = 0 ∧ result.deletions = 0) := by
  intro result
  constructor
  · intro hlong hnonempty hcounted
    obtain ⟨files, hparse, hparsed⟩ := parseDiff_lines (F := F) diff hcounted
    have hpass : ¬((content.splitOn '\n').length < config.minLinesForCcr ∨
        (parseDiff unicode (content.splitOn '\n') : ParsedDiff F).files = []) := by
      rw [hdiff, hparse, not_or, not_lt]
      refine ⟨hlong, fun hnil => hnonempty ?_⟩
      rw [show files = [] from hnil] at hparsed
      exact List.forall₂_nil_right_iff.mp hparsed
    obtain ⟨hadditions, hdeletions, pointer, hcompressed, hpointer⟩ :=
      compressed_compressWithStore unicode md5Hex24 config context hpass
    rw [hdiff, hparse] at hadditions hdeletions hcompressed
    have hscore : Scoring (scoreHunk unicode (LogTemplate.tokenize (unicode.toLowercase context))
        (cjkBigrams (unicode.toLowercase context)) : DiffHunk F → DiffHunk F) :=
      scoring_scoreHunk _ _
    have hselect : selectFiles config.maxFiles (scoreHunks unicode files context) =
        files.map (DiffFile.scored (scoreHunk unicode
          (LogTemplate.tokenize (unicode.toLowercase context))
          (cjkBigrams (unicode.toLowercase context)))) := by
      have hlength : ¬config.maxFiles < (scoreHunks unicode files context).length := by
        rw [scoreHunks, List.length_map, ← hparsed.length_eq]
        exact not_lt.mpr hfiles
      exact if_neg hlength
    rw [hselect] at hadditions hdeletions hcompressed
    obtain ⟨hadditions', hdeletions'⟩ := totals_files hparsed hscore hcounted
    obtain ⟨kept, hkept, hlines⟩ := exists_kept hparsed hscore hhunks
    refine ⟨hadditions.trans hadditions', hdeletions.trans hdeletions',
      ⟨diff.pre, kept, diff.plain⟩, pointer, ⟨rfl, hkept⟩, ?_, hpointer⟩
    have hcount : 0 < diff.files.length := List.length_pos_iff.mpr hnonempty
    rw [hcompressed, formatLines, hlines, hunksRemoved_eq_zero hparsed hhunks, List.length_map,
      List.length_map, ← hparsed.length_eq, if_pos (.inr hcount)]
    rfl
  · intro hshort
    have hpass : (content.splitOn '\n').length < config.minLinesForCcr ∨
        (parseDiff unicode (content.splitOn '\n') : ParsedDiff F).files = [] := by
      rw [hdiff]
      refine hshort.imp_right fun hnil => ?_
      have hbodies : ∀ line ∈ diff.bodies, IsCounted line := by
        rw [DiffText.bodies, hnil]
        exact fun line hline => absurd hline List.not_mem_nil
      obtain ⟨files, hparse, hparsed⟩ := parseDiff_lines (F := F) diff hbodies
      rw [hparse]
      rw [hnil] at hparsed
      exact List.forall₂_nil_left_iff.mp hparsed
    have hresult : result = passThroughResult content (content.splitOn '\n').length :=
      compressWithStore_passThrough unicode md5Hex24 config context hpass
    rw [hresult]
    exact ⟨rfl, rfl, rfl⟩

/-! ## Diffs with one change -/

/-- A file with a hunk of one line. -/
def changeDiff (line : Text)
    (hline : line.head? ∈ [none, some ' ', some '+', some '-', some '\\']) :
    DiffText Unicode.ascii :=
  ⟨[], [⟨"diff --git a/x b/x".toList, [],
    [⟨"@@ -1 +1 @@".toList, [line], by decide,
      List.forall_mem_singleton.mpr (plain_of_head? hline)⟩],
    by decide, fun _ hline => absurd hline List.not_mem_nil,
    fun hbinary => Bool.noConfusion hbinary⟩],
    fun _ hline => absurd hline List.not_mem_nil⟩

def plusDiff : DiffText Unicode.ascii := changeDiff "+y".toList (by decide)

/-- A deleted line that reads like the name of a side. -/
def sideDiff : DiffText Unicode.ascii := changeDiff "--- a/y".toList (by decide)

/-- The defaults for diffs of all lengths. -/
def shortDiffConfig : DiffCompressorConfig ℚ :=
  { DiffCompressorConfig.default with minLinesForCcr := 1 }

/-- A short diff has no numbers, and a line that reads like the name of a side leaves its hunk. -/
theorem changes_uncounted :
    (plusDiff.bodies.countP (startsWith · "+") = 1 ∧
      (compressWithStore Unicode.ascii id (DiffCompressorConfig.default : DiffCompressorConfig ℚ)
        (['\n'].intercalate plusDiff.lines) []).1.additions = 0) ∧
    (sideDiff.bodies.countP (startsWith · "-") = 1 ∧
      (compressWithStore Unicode.ascii id shortDiffConfig (['\n'].intercalate sideDiff.lines)
          []).1.compressed =
        "diff --git a/x b/x\n--- a/y\n@@ -1 +1 @@\n[1 files changed, +0 -0 lines]".toList) := by
  decide +kernel

theorem compress_keeps_changes_plusDiff :
    (compressWithStore Unicode.ascii id shortDiffConfig (['\n'].intercalate plusDiff.lines)
      []).1.additions = plusDiff.bodies.countP (startsWith · "+") := by
  have hcounted : ∀ line ∈ plusDiff.bodies, IsCounted line :=
    List.forall_mem_singleton.mpr ⟨by decide, by decide⟩
  exact ((compress_keeps_changes Unicode.ascii id shortDiffConfig
    (['\n'].intercalate plusDiff.lines) [] plusDiff (by decide +kernel) (by decide)
    (List.forall_mem_singleton.mpr (by decide))).1 (by decide) (List.cons_ne_nil _ _) hcounted).1

end Diff

end Legroom.Transforms
