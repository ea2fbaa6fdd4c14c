import Mathlib.Data.List.Dedup
import Legroom.Transforms.SearchCompressor

/-!
# What becomes of every match

The matches of a file that is shown are in its lines or in the number of its summary.  Files
that are cut off are only counted.
-/

namespace Legroom.Transforms

namespace Search

open LogTemplate (Text decimal)

/-! ## Pushing -/

section

variable {S : Type*} (tools : SearchTools) {cap : ℕ}

theorem pushWithin_spec {kept : List (SearchMatch S)} (found : SearchMatch S)
    (hnodup : (kept.map (SearchMatch.key tools)).Nodup) (hlength : kept.length ≤ cap) :
    let next := pushWithin tools cap kept found
    kept <+: next ∧ (next.map (SearchMatch.key tools)).Nodup ∧ next.length ≤ cap ∧
      (∀ other ∈ next, other ∈ kept ∨ other = found) ∧
      (kept.length < cap → found.key tools ∈ next.map (SearchMatch.key tools)) := by
  intro next
  by_cases hcap : kept.length < cap
  · by_cases hseen : found.key tools ∈ kept.map (SearchMatch.key tools)
    · have hnext : next = kept := (if_pos hcap).trans (if_pos hseen)
      rw [hnext]
      exact ⟨List.prefix_rfl, hnodup, hlength, fun other hother => .inl hother, fun _ => hseen⟩
    · have hnext : next = kept ++ [found] := (if_pos hcap).trans (if_neg hseen)
      rw [hnext, List.map_append, List.length_append]
      refine ⟨List.prefix_append kept [found], ?_, hcap, fun other hother => ?_, fun _ =>
        List.mem_append_right _ List.mem_cons_self⟩
      · rw [List.map_singleton, List.nodup_append_comm]
        exact List.nodup_cons.mpr ⟨hseen, hnodup⟩
      · exact (List.mem_append.mp hother).imp_right List.mem_singleton.mp
  · have hnext : next = kept := if_neg hcap
    rw [hnext]
    exact ⟨List.prefix_rfl, hnodup, hlength, fun other hother => .inl hother,
      fun hless => absurd hless hcap⟩

/-- Pushing goes on until all keys are seen or the bound is reached. -/
theorem foldl_pushWithin (kept more : List (SearchMatch S))
    (hnodup : (kept.map (SearchMatch.key tools)).Nodup) (hlength : kept.length ≤ cap) :
    let result := more.foldl (pushWithin tools cap) kept
    kept <+: result ∧ (result.map (SearchMatch.key tools)).Nodup ∧ result.length ≤ cap ∧
      (∀ found ∈ result, found ∈ kept ∨ found ∈ more) ∧
      (result.length < cap →
        ∀ found ∈ more, found.key tools ∈ result.map (SearchMatch.key tools)) := by
  induction more generalizing kept with
  | nil =>
      exact ⟨List.prefix_rfl, hnodup, hlength, fun found hfound => .inl hfound,
        fun _ found hfound => absurd hfound List.not_mem_nil⟩
  | cons found more ih =>
      obtain ⟨hextends, hnext, hcap, hmem, hpushed⟩ :=
        pushWithin_spec tools found hnodup hlength
      obtain ⟨hresult, hkeys, hbound, hfrom, hall⟩ :=
        ih (pushWithin tools cap kept found) hnext hcap
      refine ⟨hextends.trans hresult, hkeys, hbound, fun other hother => ?_, fun hless => ?_⟩
      · rcases hfrom other hother with hother | hother
        · rcases hmem other hother with hother | rfl
          · exact .inl hother
          · exact .inr List.mem_cons_self
        · exact .inr (List.mem_cons_of_mem found hother)
      · have hkept : kept.length < cap :=
          ((hextends.trans hresult).length_le).trans_lt hless
        refine List.forall_mem_cons.mpr ⟨?_, hall hless⟩
        exact (hresult.map (SearchMatch.key tools)).subset (hpushed hkept)

theorem length_foldl_pushWithin (kept more : List (SearchMatch S)) :
    (more.foldl (pushWithin tools cap) kept).length ≤ kept.length + more.length := by
  induction more generalizing kept with
  | nil => exact Nat.le_refl _
  | cons found more ih =>
      refine (ih _).trans ?_
      rw [pushWithin, pushUnique, List.length_cons]
      split_ifs
      · omega
      · rw [List.length_append, List.length_singleton]
        omega
      · omega

/-- A match that comes early enough is pushed, or one with its key was. -/
theorem key_mem_foldl_pushWithin {before : List (SearchMatch S)} (hbefore : before.length < cap)
    (found : SearchMatch S) (after : List (SearchMatch S)) :
    found.key tools ∈ ((before ++ found :: after).foldl (pushWithin tools cap) []).map
      (SearchMatch.key tools) := by
  obtain ⟨-, hnodup, hlength, -, -⟩ :=
    foldl_pushWithin tools [] before List.nodup_nil (Nat.zero_le cap)
  have hshort : (before.foldl (pushWithin tools cap) []).length < cap :=
    (length_foldl_pushWithin tools [] before).trans_lt ((Nat.zero_add _).trans_lt hbefore)
  obtain ⟨-, hnext, hcap, -, hpushed⟩ := pushWithin_spec tools found hnodup hlength
  obtain ⟨hextends, -⟩ := foldl_pushWithin tools _ after hnext hcap
  rw [List.foldl_append, List.foldl_cons]
  exact (hextends.map (SearchMatch.key tools)).subset (hpushed hshort)

end

section

variable {S F : Type*} [Float64 S] {tools : SearchTools}
  {config : SearchCompressorConfig F}

/-! ## One file -/

instance : Std.Total (LineOrder (S := S)) :=
  ⟨fun left right => Nat.le_total left.lineNumber right.lineNumber⟩

instance : IsTrans (SearchMatch S) LineOrder := ⟨fun _ _ _ => Nat.le_trans⟩

variable (tools config) in
/-- What is shown of a file within a bound. -/
structure Shows (cap : ℕ) (file shown : FileMatches S) : Prop where
  file_eq : shown.file = file.file
  subperm : shown.found.Subperm file.found
  ordered : shown.found.Pairwise LineOrder
  distinct : (shown.found.map fun found => (found.lineNumber, found.content)).Nodup
  length_le : shown.found.length ≤ cap
  first : config.alwaysKeepFirst = true → 0 < cap → ∀ found ∈ file.found.head?,
    found ∈ shown.found
  last : config.alwaysKeepLast = true → (if config.alwaysKeepFirst then 1 else 0) < cap →
    ∀ found ∈ file.found.getLast?, found.key tools ∈ shown.found.map (SearchMatch.key tools)
  complete : shown.found.length < cap → ∀ found ∈ file.found,
    found.key tools ∈ shown.found.map (SearchMatch.key tools)

theorem mem_candidates {found : List (SearchMatch S)} {other : SearchMatch S}
    (hother : other ∈ candidates config found) : other ∈ found := by
  rw [candidates, List.mem_append, List.mem_append] at hother
  rcases hother with (hother | hother) | hother
  · split_ifs at hother
    · exact List.mem_of_mem_head? (Option.mem_toList.mp hother)
    · exact absurd hother List.not_mem_nil
  · split_ifs at hother
    · exact List.mem_of_mem_getLast? (Option.mem_toList.mp hother)
    · exact absurd hother List.not_mem_nil
  · exact (List.perm_insertionSort ScoreOrder found).mem_iff.mp hother

variable (tools config) in
theorem selectFile_shows (cap : ℕ) (file : FileMatches S) :
    Shows tools config cap file (selectFile tools config cap file) := by
  set result := (candidates config file.found).foldl (pushWithin tools cap) [] with hresult
  have hperm := List.perm_insertionSort LineOrder result
  have hkeys : ∀ key : ℕ × ℕ, key ∈ result.map (SearchMatch.key tools) →
      key ∈ (result.insertionSort LineOrder).map (SearchMatch.key tools) :=
    fun key hkey => (hperm.map (SearchMatch.key tools)).mem_iff.mpr hkey
  obtain ⟨-, hnodup, hlength, hfrom, hall⟩ := foldl_pushWithin tools []
    (candidates config file.found) List.nodup_nil (Nat.zero_le cap)
  have hsubset : ∀ found ∈ result, found ∈ file.found := fun found hfound =>
    mem_candidates ((hfrom found hfound).resolve_left List.not_mem_nil)
  constructor
  case file_eq => rfl
  case subperm =>
      exact hperm.subperm.trans (List.subperm_of_subset hnodup.of_map hsubset)
  case ordered => exact List.pairwise_insertionSort LineOrder result
  case distinct =>
      refine (hperm.map _).nodup_iff.mpr (List.Nodup.of_map
        (fun shown : ℕ × Text => (shown.1, tools.hashU64 shown.2)) ?_)
      rwa [List.map_map]
  case length_le => exact (hperm.length_eq).trans_le hlength
  case first =>
      intro hkeep hcap found hfound
      refine hperm.mem_iff.mpr ?_
      rw [hresult, candidates, if_pos hkeep, Option.mem_def.mp hfound]
      have hpushed : pushWithin tools cap [] found = [found] :=
        (if_pos hcap).trans (if_neg List.not_mem_nil)
      obtain ⟨hextends, -⟩ := foldl_pushWithin tools [found] _
        (List.nodup_singleton (found.key tools)) hcap
      rw [List.append_assoc, Option.toList_some, List.singleton_append, List.foldl_cons, hpushed]
      exact hextends.subset List.mem_cons_self
  case last =>
      intro hkeep hcap found hfound
      refine hkeys _ ?_
      have hfirsts : (if config.alwaysKeepFirst then file.found.head?.toList else []).length ≤
          if config.alwaysKeepFirst then 1 else 0 := by
        split_ifs
        · exact Option.length_toList_le
        · exact Nat.le_refl 0
      have hshort := hfirsts.trans_lt hcap
      by_cases hlong : 1 < file.found.length
      · have hlasts : (if config.alwaysKeepLast = true ∧ 1 < file.found.length then
            file.found.getLast?.toList else []) = [found] := by
          rw [if_pos ⟨hkeep, hlong⟩, Option.mem_def.mp hfound, Option.toList_some]
        rw [hresult, candidates, hlasts, List.append_assoc, List.singleton_append]
        exact key_mem_foldl_pushWithin tools hshort found _
      · -- The only match of a file is tried in the end if not before.
        have hnone : (if config.alwaysKeepLast = true ∧ 1 < file.found.length then
            file.found.getLast?.toList else []) = [] := if_neg fun hboth => hlong hboth.2
        have hone : file.found.length = 1 := by
          have hpositive := List.length_pos_of_mem (List.mem_of_mem_getLast? hfound)
          omega
        obtain ⟨only, honly⟩ := List.length_eq_one_iff.mp hone
        have hsorted : file.found.insertionSort ScoreOrder = [found] := by
          rw [honly] at hfound ⊢
          rw [← Option.some.inj hfound]
          rfl
        rw [hresult, candidates, hnone, hsorted, List.append_nil]
        exact key_mem_foldl_pushWithin tools hshort found []
  case complete =>
      intro hless found hfound
      refine hkeys _ (hall ((hperm.length_eq).symm.trans_lt hless) found ?_)
      exact List.mem_append_right _ ((List.perm_insertionSort ScoreOrder _).mem_iff.mpr hfound)

/-! ## All files -/

omit [Float64 S] in
theorem matchCount_cons (file : FileMatches S) (files : List (FileMatches S)) :
    matchCount (file :: files) = file.found.length + matchCount files := by
  rw [matchCount, matchCount, List.map_cons, List.sum_cons]

/-- Once the total is reached nothing more is selected. -/
theorem selectFrom_full {adaptiveTotal total : ℕ} (hfull : adaptiveTotal ≤ total)
    (files : List (FileMatches S)) :
    selectFrom tools config adaptiveTotal total files = ⟨[], 0, matchCount files⟩ := by
  induction files with
  | nil => rfl
  | cons file files ih => rw [selectFrom, if_pos hfull, ih, matchCount_cons]

variable (tools config) in
/-- The files that come before the total is reached are selected. -/
theorem selectFrom_spec (adaptiveTotal total : ℕ) (files : List (FileMatches S)) :
    let chosen := selectFrom tools config adaptiveTotal total files
    ∃ taken cut, files = taken ++ cut ∧ chosen.selected.length = taken.length ∧
      (∀ index file shown, taken[index]? = some file → chosen.selected[index]? = some shown →
        Shows tools config (min config.maxMatchesPerFile
          (adaptiveTotal - (total + matchCount (chosen.selected.take index)))) file shown) ∧
      (total ≤ adaptiveTotal → total + matchCount chosen.selected ≤ adaptiveTotal) ∧
      (cut ≠ [] → adaptiveTotal ≤ total + matchCount chosen.selected) ∧
      chosen.droppedByGlobalCap = matchCount cut ∧
      matchCount taken = matchCount chosen.selected + chosen.droppedByPerFileCap := by
  induction files generalizing total with
  | nil =>
      exact ⟨[], [], rfl, rfl, fun index file shown hfile => (by cases hfile), id,
        fun hcut => absurd rfl hcut, rfl, rfl⟩
  | cons file files ih =>
      by_cases hfull : adaptiveTotal ≤ total
      · rw [selectFrom_full hfull]
        exact ⟨[], file :: files, rfl, rfl, fun index file shown hfile => (by cases hfile),
          id, fun _ => hfull, rfl, rfl⟩
      · have hshows := selectFile_shows tools config
          (min config.maxMatchesPerFile (adaptiveTotal - total)) file
        set kept := selectFile tools config
          (min config.maxMatchesPerFile (adaptiveTotal - total)) file with hkept
        obtain ⟨taken, cut, hfiles, hlength, hall, htotal, hcut, hglobal, hper⟩ :=
          ih (total + kept.found.length)
        rw [selectFrom, if_neg hfull]
        dsimp only
        rw [← hkept]
        refine ⟨file :: taken, cut, congrArg (file :: ·) hfiles, congrArg (· + 1) hlength,
          fun index other shown hother hshown => ?_, fun _ => ?_, fun hsome => ?_, hglobal, ?_⟩
        · cases index with
          | zero =>
              cases hother
              cases hshown
              exact hshows
          | succ index =>
              rw [List.take_succ_cons, matchCount_cons, ← Nat.add_assoc]
              exact hall index other shown hother hshown
        · rw [matchCount_cons, ← Nat.add_assoc]
          refine htotal ?_
          have hbound := hshows.length_le
          omega
        · rw [matchCount_cons, ← Nat.add_assoc]
          exact hcut hsome
        · have hshorter := hshows.subperm.length_le
          rw [matchCount_cons, matchCount_cons, hper]
          omega

/-! ## Output -/

variable (config) in
/-- What the output has of a file. -/
def fileLines (original : List (FileMatches S)) (kept : FileMatches S) : List Text :=
  shownLines config kept ++ (fileSummary config original kept).toList

variable (config) in
/-- A blank line is between files that have a heading. -/
def joinFiles (sections : List (List Text)) : List Text :=
  if config.groupByFile then [[]].intercalate sections else sections.flatten

theorem intercalate_blank (first : List Text) (sections : List (List Text)) :
    [[]].intercalate (first :: sections) = first ++ sections.flatMap fun lines => [] :: lines := by
  induction sections generalizing first with
  | nil => rw [List.intercalate_singleton, List.flatMap_nil, List.append_nil]
  | cons second sections ih =>
      rw [List.intercalate_cons_cons, ih, List.flatMap_cons, List.append_assoc]
      rfl

omit [Float64 S] in
theorem foldl_pushFile (original selected : List (FileMatches S)) :
    selected.foldl (pushFile config original) [] =
      joinFiles config (selected.map (fileLines config original)) := by
  by_cases hgrouped : config.groupByFile = true
  · have hrest : ∀ (rest : List (FileMatches S)) (lines : List Text), lines ≠ [] →
        rest.foldl (pushFile config original) lines =
          lines ++ (rest.map (fileLines config original)).flatMap fun lines => [] :: lines := by
      intro rest
      induction rest with
      | nil => exact fun lines _ => (List.append_nil lines).symm
      | cons kept rest ih =>
          intro lines hlines
          rw [List.foldl_cons, pushFile, if_pos ⟨hgrouped, hlines⟩, ih, List.map_cons,
            List.flatMap_cons, fileLines]
          · simp only [List.append_assoc, List.cons_append, List.nil_append]
          · simp
    cases selected with
    | nil => rw [joinFiles, if_pos hgrouped]; rfl
    | cons kept selected =>
        have hfirst : pushFile config original [] kept = fileLines config original kept := by
          rw [pushFile, if_neg fun hboth => hboth.2 rfl, fileLines]
          rfl
        have hne : fileLines config original kept ≠ [] := by
          rw [fileLines, shownLines, if_pos hgrouped]
          exact List.cons_ne_nil _ _
        rw [List.foldl_cons, hfirst, hrest selected _ hne, joinFiles, if_pos hgrouped,
          List.map_cons, intercalate_blank]
  · have hall : ∀ (rest : List (FileMatches S)) (lines : List Text),
        rest.foldl (pushFile config original) lines =
          lines ++ (rest.map (fileLines config original)).flatten := by
      intro rest
      induction rest with
      | nil => exact fun lines => (List.append_nil lines).symm
      | cons kept rest ih =>
          intro lines
          rw [List.foldl_cons, ih, pushFile, if_neg fun hboth => hgrouped hboth.1, List.map_cons,
            List.flatten_cons, fileLines]
          simp only [List.append_assoc, List.nil_append]
    rw [hall, joinFiles, if_neg hgrouped, List.nil_append]

/-! ## The matches of the input -/

omit [Float64 S] in
def SearchMatch.line (found : SearchMatch S) : ParsedLine :=
  ⟨found.file, found.lineNumber, found.content⟩

/-- The lines of the input that were parsed, by their files. -/
structure Groups (content : Text) (files : List (FileMatches S)) : Prop where
  nodup : (files.map FileMatches.file).Nodup
  found : ∀ file ∈ files, file.found.map SearchMatch.line =
    ((scannedLines content).filterMap parseMatchLine).filter fun line => line.file = file.file
  covered : ∀ line ∈ (scannedLines content).filterMap parseMatchLine,
    ∃ file ∈ files, file.file = line.file

theorem parsedMatches_eq (content : Text) : (parsedMatches content : List (SearchMatch S)) =
    ((scannedLines content).filterMap parseMatchLine).map SearchMatch.new := by
  rw [parsedMatches, List.map_filterMap]

theorem groups_parseSearchResults (content : Text) :
    Groups content (parseSearchResults content : List (FileMatches S)) := by
  set matched : List (SearchMatch S) := parsedMatches content with hmatched
  have hperm := List.perm_insertionSort FileLe ((matched.map SearchMatch.file).dedup.map
    fun file => FileMatches.mk file (matched.filter fun found => found.file = file))
  constructor
  case nodup =>
      refine (hperm.map FileMatches.file).nodup_iff.mpr ?_
      rw [List.map_map]
      exact (List.map_id _).symm ▸ List.nodup_dedup _
  case found =>
      intro file hfile
      obtain ⟨name, -, rfl⟩ := List.mem_map.mp (hperm.mem_iff.mp hfile)
      rw [hmatched, parsedMatches_eq, List.filter_map, List.map_map]
      exact List.map_id _
  case covered =>
      intro line hline
      have hmem : SearchMatch.new line ∈ matched := by
        rw [hmatched, parsedMatches_eq]
        exact List.mem_map_of_mem hline
      refine ⟨_, hperm.mem_iff.mpr (List.mem_map_of_mem (List.mem_dedup.mpr
        (List.mem_map_of_mem hmem))), rfl⟩

variable {files : List (FileMatches S)}

/-- Scores change no line. -/
theorem Groups.scoreMatches [Float64 F] {content : Text} (hfiles : Groups content files)
    (context : Text) : Groups content (scoreMatches tools config context files) := by
  constructor
  case nodup =>
      rw [Search.scoreMatches, List.map_map]
      exact hfiles.nodup
  case found =>
      intro file hfile
      obtain ⟨original, horiginal, rfl⟩ := List.mem_map.mp hfile
      rw [List.map_map]
      exact hfiles.found original horiginal
  case covered =>
      intro line hline
      obtain ⟨file, hfile, hname⟩ := hfiles.covered line hline
      exact ⟨_, List.mem_map_of_mem hfile, hname⟩

omit [Float64 S] in
theorem find?_file (hnodup : (files.map FileMatches.file).Nodup) {file : FileMatches S}
    (hfile : file ∈ files) : (files.find? fun other => other.file = file.file) = some file := by
  induction files with
  | nil => exact absurd hfile List.not_mem_nil
  | cons first files ih =>
      obtain ⟨hfirst, hnodup⟩ := List.nodup_cons.mp hnodup
      rcases List.mem_cons.mp hfile with rfl | hfile
      · exact List.find?_cons_of_pos (decide_eq_true rfl)
      · have hne : first.file ≠ file.file := fun heq =>
          hfirst (heq ▸ List.mem_map_of_mem hfile)
        rw [List.find?_cons_of_neg (by simpa using hne), ih hnodup hfile]

/-! ## Accounts -/

variable (tools config) in
/-- The files of a search in the order of their scores: those that are shown, and those that
come after the total is reached. -/
structure Accounts (total : ℕ) (files taken cut kept : List (FileMatches S)) : Prop where
  ranked : taken ++ cut = rankedFiles config files
  length_eq : kept.length = taken.length
  shows : ∀ index file shown, taken[index]? = some file → kept[index]? = some shown →
    Shows tools config (min config.maxMatchesPerFile (total - matchCount (kept.take index)))
      file shown ∧
    fileSummary config files shown =
      if shown.found.length < file.found.length then
        some (summaryText config file.file (file.found.length - shown.found.length))
      else none
  total_le : matchCount kept ≤ total
  cut_full : cut ≠ [] → matchCount kept = total

theorem mem_of_mem_rankedFiles {file : FileMatches S} (config : SearchCompressorConfig F)
    (hfile : file ∈ rankedFiles config files) : file ∈ files :=
  (List.perm_insertionSort TotalOrder files).mem_iff.mp (List.mem_of_mem_take hfile)

variable (tools config) in
theorem selectFrom_accounts (hnodup : (files.map FileMatches.file).Nodup) (total : ℕ) :
    let chosen := selectFrom tools config total 0 (rankedFiles config files)
    ∃ taken cut, Accounts tools config total files taken cut chosen.selected ∧
      chosen.droppedByGlobalCap = matchCount cut ∧
      matchCount taken = matchCount chosen.selected + chosen.droppedByPerFileCap := by
  obtain ⟨taken, cut, hfiles, hlength, hall, htotal, hcut, hglobal, hper⟩ :=
    selectFrom_spec tools config total 0 (rankedFiles config files)
  have hle := htotal (Nat.zero_le total)
  rw [Nat.zero_add] at hle
  refine ⟨taken, cut, ⟨hfiles.symm, hlength, fun index file shown hfile hshown => ?_, hle,
    fun hsome => ?_⟩, hglobal, hper⟩
  · have hshows := hall index file shown hfile hshown
    rw [Nat.zero_add] at hshows
    have hmem : file ∈ files := by
      refine mem_of_mem_rankedFiles config ?_
      rw [hfiles]
      exact List.mem_append_left cut (List.mem_of_getElem? hfile)
    refine ⟨hshows, ?_⟩
    rw [fileSummary, hshows.file_eq, find?_file hnodup hmem]
    rfl
  · have hfull := hcut hsome
    rw [Nat.zero_add] at hfull
    exact Nat.le_antisymm hle hfull

omit [Float64 S] in
theorem matchCount_perm {left right : List (FileMatches S)} (hperm : left.Perm right) :
    matchCount left = matchCount right :=
  (hperm.map _).sum_nat

theorem matchCount_scoreMatches [Float64 F] (tools : SearchTools)
    (config : SearchCompressorConfig F) (context : Text) (files : List (FileMatches S)) :
    matchCount (scoreMatches tools config context files) = matchCount files := by
  rw [matchCount, matchCount, scoreMatches, List.map_map]
  refine congrArg List.sum (List.map_congr_left fun file _ => ?_)
  exact List.length_map _

theorem compressWithStore_eq [Float64 F] (tools : SearchTools)
    (config : SearchCompressorConfig F) (hasStore : Bool) (content context : Text) (bias : F)
    (hparsed : (parseSearchResults content : List (FileMatches S)) ≠ []) :
    let files : List (FileMatches S) :=
      scoreMatches tools config context (parseSearchResults content)
    let chosen := selectMatches tools config files bias
    let result := compressWithStore S tools config hasStore content context bias
    ∃ marker, result.1.compressed = (formatOutput config chosen.selected files).1 ++ marker ∧
      (marker = [] ∨ marker = '\n' :: retrievalMarker (matchCount files)
        (matchCount chosen.selected) (tools.md5Hex24 content)) ∧
      result.2.1.filesDropped = files.length - (rankedFiles config files).length ∧
      result.2.1.matchesDroppedByGlobalCap = chosen.droppedByGlobalCap ∧
      result.2.1.matchesDroppedByPerFileCap = chosen.droppedByPerFileCap := by
  intro files chosen result
  have hempty : ¬(parseSearchResults content : List (FileMatches S)).isEmpty = true :=
    fun hempty => hparsed (List.isEmpty_iff.mp hempty)
  have hresult : result = compressWithStore S tools config hasStore content context bias := rfl
  rw [compressWithStore] at hresult
  simp only [if_neg hempty] at hresult
  rw [hresult]
  refine ⟨_, rfl, ?_, rfl, rfl, rfl⟩
  split_ifs
  · right
    rw [matchCount_scoreMatches]
  · exact .inl rfl

end

/-! ## A file that is not shown -/

def plainTools : SearchTools where
  toTextTools := SmartCrusher.letterCaseTools
  importance := fun _ => none
  hashU64 := List.length
  md5Hex24 := id

def oneFileConfig : SearchCompressorConfig ℚ :=
  { SearchCompressorConfig.default with maxFiles := 1 }

def twoFiles : Text := "a:1:x\nb:2:y".toList

end Search

end Legroom.Transforms
