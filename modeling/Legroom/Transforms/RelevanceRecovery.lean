import Legroom.Transforms.LosslessInverses
import Legroom.Transforms.LossyRouter
import Legroom.Transforms.RelevanceSplit

/-!
# What a relevance split keeps

The runs that are kept are folded, and what a tail compressor makes of the others is put
between them.  The lines of the result are read as the folds are undone: a row belongs to the
path above it, and a marker to the line above it.
-/

namespace Legroom.RelevanceSplit

open Python LosslessCompaction LosslessRouter

/-! ## The split -/

/-- The strategies whose contents are split. -/
inductive SplitKind where
  | log | search

def SplitKind.kind : SplitKind → Kind
  | .log => .log
  | .search => .search

/-- A run of records as it is and as it is written. -/
structure Part where
  keep : Bool
  original : Text
  written : Text

/-- The part of the configuration that the split depends on. -/
structure RouterSettings (F : Type*) where
  relevanceThreshold : F
  adaptiveThreshold : Bool
  maxRecords : Option ℤ

/-- The windows have the sizes that `plan_relevance_split` has as its defaults. -/
def RouterSettings.config {F : Type*} (settings : RouterSettings F) : SplitConfig F where
  threshold := settings.relevanceThreshold
  adaptive := settings.adaptiveThreshold
  window := 8
  maxChars := 1200
  maxRecords := settings.maxRecords

section

variable (tables : CharTables)

/-- A tail that the compressor raises on is folded too. -/
def writePart (kind : SplitKind) (tail : Text → Option Text) (run : Bool × Text) : Part :=
  let folded := compactLossless tables run.2 kind.kind
  ⟨run.1, run.2, if run.1 then folded else (tail run.2).getD folded⟩

def joined (parts : List Part) : Text := (parts.map Part.written).flatten

/-- `tail` is the compressor with the query. -/
def relevanceSplitCompress {F : Type*} [Float64 F] (round9 : F → F) (scorer : Option (Scorer F))
    (settings : RouterSettings F) (kind : SplitKind) (tail : Text → Text → Option Text)
    (content query : Text) : Option Text :=
  match scorer with
  | none => none
  | some scorer =>
      if isBlank tables query then none
      else
        (planRelevanceSplit tables round9 scorer settings.config content query).bind fun runs =>
          if runs.all Prod.fst then none
          else
            let result := joined (runs.map (writePart tables kind fun text => tail text query))
            if result.length < (compactLossless tables content kind.kind).length then some result
            else none

variable {kind : SplitKind}

/-- It is the split of the router, whose plan is this one. -/
theorem compressed_relevanceSplitCompress {F : Type*} [Float64 F] {round9 : F → F}
    {scorer : Scorer F} {settings : RouterSettings F} {compressors : LossyRouter.Compressors}
    {content query : Text} (hquery : isBlank tables query = false)
    (hplan : compressors.planRelevanceSplit content =
      (planRelevanceSplit tables round9 scorer settings.config content query).getD []) :
    (LossyRouter.relevanceSplitCompress tables compressors content kind.kind).map
        LossyRouter.Draft.compressed =
      relevanceSplitCompress tables round9 (some scorer) settings kind
        (fun text _ => some (compressors.tryMlCompressor none text).1) content query := by
  rw [LossyRouter.relevanceSplitCompress, relevanceSplitCompress, hplan, hquery]
  dsimp only
  rw [if_neg Bool.false_ne_true]
  cases planRelevanceSplit tables round9 scorer settings.config content query with
  | none => rfl
  | some runs =>
      have hjoined : ((runs.map fun run =>
          if run.1 then
            LossyRouter.plain compressors (compactLossless tables run.2 kind.kind)
          else LossyRouter.summarize compressors run.2).map LossyRouter.Draft.compressed).flatten =
            joined (runs.map (writePart tables kind fun text =>
              some (compressors.tryMlCompressor none text).1)) := by
        rw [joined, List.map_map, List.map_map]
        refine congrArg List.flatten (List.map_congr_left fun run _ => ?_)
        obtain ⟨keep, text⟩ := run
        cases keep <;> rfl
      rw [Option.getD_some, Option.bind_some, hjoined]
      split_ifs <;> rfl

/-! ## Reading -/

def linesOf (text : Text) : List Text := (splitKeepTrailing text).1

/-- The lines that the folds of a kind were made from. -/
def SplitKind.read : SplitKind → List Text → Option (List Text)
  | .log, lines => expandLines tables lines
  | .search, lines => some (searchUnheadingLines tables none lines)

/-- A line that may be read with the line above it. -/
def SplitKind.continues : SplitKind → Text → Bool
  | .log, line => (readRunMarker tables line).isSome
  | .search, line => (readHeadingRow tables line).isSome

/-- Whether a marker behind the lines repeats the last one. -/
def takesMarker : List Text → Bool
  | [] => false
  | [_] => true
  | _ :: next :: rest =>
      if (readRunMarker tables next).isSome then takesMarker rest else takesMarker (next :: rest)

/-- Whether a row behind the lines belongs to a path among them. -/
def takesRow : Option Text → List Text → Bool
  | current, [] => current.isSome
  | current, line :: rest =>
      match current, readHeadingRow tables line with
      | some path, some _ => takesRow (some path) rest
      | _, data =>
          if data.isNone ∧ (rest.head?.bind (readHeadingRow tables)).isSome then
            takesRow (some line) rest
          else if rest = [] then data.isNone
          else takesRow none rest

def SplitKind.takes : SplitKind → List Text → Bool
  | .log, lines => takesMarker tables lines
  | .search, lines => takesRow tables none lines

variable {tables}
variable {front back : List Text}

theorem join_append (hfront : front ≠ []) (hback : back ≠ []) (hadTrailing : Bool) :
    join front true ++ join back hadTrailing = join (front ++ back) hadTrailing := by
  rw [join, join, join, joinLines, joinLines, joinLines, intercalate_append newline hfront hback,
    if_pos rfl]
  simp only [List.append_assoc, List.cons_append, List.nil_append]

/-- The lines of two texts are those of both if the first one ends a line. -/
theorem linesOf_append {front back : Text} (hfront : front.getLast? = some newline)
    (hback : back ≠ []) : linesOf (front ++ back) = linesOf front ++ linesOf back := by
  have hne : front ≠ [] := by
    rintro rfl
    cases hfront
  have htrailing : (splitKeepTrailing front).2 = true := by
    rw [splitKeepTrailing, if_neg hne, if_pos hfront]
  have hleft := layout_splitKeepTrailing hne
  have hright := layout_splitKeepTrailing hback
  have hlayout : Layout ((splitKeepTrailing front).1 ++ (splitKeepTrailing back).1)
      (splitKeepTrailing back).2 := by
    refine ⟨List.append_ne_nil_of_left_ne_nil hleft.nonempty _, fun line hline => ?_,
      fun hnone => ?_⟩
    · exact (List.mem_append.mp hline).elim (hleft.noNewline line) (hright.noNewline line)
    · rw [List.getLast?_append_of_ne_nil _ hright.nonempty]
      exact hright.last hnone
  have hjoined : front ++ back =
      join ((splitKeepTrailing front).1 ++ (splitKeepTrailing back).1)
        (splitKeepTrailing back).2 := by
    rw [← join_append hleft.nonempty hright.nonempty, ← htrailing, join_splitKeepTrailing,
      join_splitKeepTrailing]
  rw [linesOf, hjoined, splitKeepTrailing_join hlayout]
  rfl

/-- A marker that is not at a seam is read on its own side of it. -/
theorem expandLines_append
    (hclean : ∀ next ∈ back.head?, (readRunMarker tables next).isSome →
      takesMarker tables front = false) :
    expandLines tables (front ++ back) =
      (expandLines tables front).bind fun read =>
        (expandLines tables back).map (read ++ ·) := by
  induction front using takesMarker.induct tables with
  | case1 =>
      have hempty : expandLines tables [] = some [] := rfl
      rw [List.nil_append, hempty, Option.bind_some]
      exact Option.map_id'.symm
  | case2 line =>
      cases back with
      | nil => rfl
      | cons next rest =>
          have hnext : readRunMarker tables next = none := by
            by_contra hmarker
            exact nomatch hclean next rfl (Option.isSome_iff_ne_none.mpr hmarker)
          rw [List.singleton_append, expandLines, hnext]
          rfl
  | case3 line next rest hmarker ih =>
      rw [takesMarker, if_pos hmarker] at hclean
      obtain ⟨digits, hdigits⟩ := Option.isSome_iff_exists.mp hmarker
      rw [List.cons_append, List.cons_append, expandLines, expandLines, hdigits]
      dsimp only
      rw [ih hclean]
      cases parseInt tables digits with
      | none => rfl
      | some count =>
          cases expandLines tables rest with
          | none => rfl
          | some read =>
              cases expandLines tables back with
              | none => rfl
              | some more => exact congrArg some (List.append_assoc _ _ _).symm
  | case4 line next rest hmarker ih =>
      rw [takesMarker, if_neg hmarker] at hclean
      rw [Option.not_isSome_iff_eq_none] at hmarker
      rw [List.cons_append, List.cons_append, expandLines, expandLines, hmarker]
      dsimp only
      rw [← List.cons_append, ih hclean]
      cases expandLines tables (next :: rest) with
      | none => rfl
      | some read =>
          cases expandLines tables back with
          | none => rfl
          | some more => rfl

variable {line : Text} {row : Text × Text} {rest : List Text}

theorem searchUnheadingLines_stray (hrow : readHeadingRow tables line = some row) :
    searchUnheadingLines tables none (line :: rest) =
      line :: searchUnheadingLines tables none rest := by
  rw [searchUnheadingLines.eq_def]
  simp only [hrow]
  rfl

theorem searchUnheadingLines_under {path : Text} (hrow : readHeadingRow tables line = some row) :
    searchUnheadingLines tables (some path) (line :: rest) =
      (path ++ [colon] ++ headingRow row) :: searchUnheadingLines tables (some path) rest := by
  rw [searchUnheadingLines.eq_def]
  simp only [hrow]

variable (current : Option Text)

theorem searchUnheadingLines_other (rest : List Text) (hrow : readHeadingRow tables line = none) :
    searchUnheadingLines tables current (line :: rest) =
      if (rest.head?.bind (readHeadingRow tables)).isSome then
        searchUnheadingLines tables (some line) rest
      else line :: searchUnheadingLines tables none rest := by
  rw [searchUnheadingLines.eq_def]
  cases current <;> simp only [hrow, Option.isNone_none, true_and]

theorem takesRow_stray (hrow : readHeadingRow tables line = some row) :
    takesRow tables none (line :: rest) = takesRow tables none rest := by
  rw [takesRow.eq_def]
  simp only [hrow, Option.isNone_some, Bool.false_eq_true, false_and, if_false]
  split_ifs with hrest
  · rw [hrest]
    rfl
  · rfl

theorem takesRow_under {path : Text} (hrow : readHeadingRow tables line = some row) :
    takesRow tables (some path) (line :: rest) = takesRow tables (some path) rest := by
  rw [takesRow.eq_def]
  simp only [hrow]

theorem takesRow_other (rest : List Text) (hrow : readHeadingRow tables line = none) :
    takesRow tables current (line :: rest) =
      if (rest.head?.bind (readHeadingRow tables)).isSome then takesRow tables (some line) rest
      else if rest = [] then true
      else takesRow tables none rest := by
  rw [takesRow.eq_def]
  cases current <;> simp only [hrow, Option.isNone_none, true_and]

/-- A row that is not at a seam belongs to a path on its own side of it. -/
theorem searchUnheadingLines_append {current : Option Text}
    (hclean : ∀ next ∈ back.head?, (readHeadingRow tables next).isSome →
      takesRow tables current front = false) :
    searchUnheadingLines tables current (front ++ back) =
      searchUnheadingLines tables current front ++ searchUnheadingLines tables none back := by
  induction front generalizing current with
  | nil =>
      cases current with
      | none => cases back <;> rfl
      | some path =>
          cases back with
          | nil => rfl
          | cons next rest =>
              have hnext : readHeadingRow tables next = none := by
                by_contra hrow
                exact nomatch hclean next rfl (Option.isSome_iff_ne_none.mpr hrow)
              rw [List.nil_append, searchUnheadingLines_other _ rest hnext,
                searchUnheadingLines_other none rest hnext]
              rfl
  | cons line rest ih =>
      rw [List.cons_append]
      cases hrow : readHeadingRow tables line with
      | some row =>
          cases current with
          | none =>
              rw [takesRow_stray hrow] at hclean
              rw [searchUnheadingLines_stray hrow, searchUnheadingLines_stray hrow, ih hclean]
              rfl
          | some path =>
              rw [takesRow_under hrow] at hclean
              rw [searchUnheadingLines_under hrow, searchUnheadingLines_under hrow, ih hclean]
              rfl
      | none =>
          rw [takesRow_other current rest hrow] at hclean
          rw [searchUnheadingLines_other current _ hrow, searchUnheadingLines_other current _ hrow]
          cases rest with
          | nil =>
              have hnext : (([] ++ back : List Text).head?.bind (readHeadingRow tables)).isSome =
                  false := by
                rw [List.nil_append, Bool.eq_false_iff]
                intro hsome
                cases back with
                | nil => cases hsome
                | cons next back => exact nomatch hclean next rfl hsome
              rw [hnext]
              rfl
          | cons second rest =>
              have hhead : (second :: rest ++ back).head? = (second :: rest).head? := rfl
              rw [hhead]
              split_ifs with hdata
              · simp only [if_pos hdata] at hclean
                exact ih hclean
              · simp only [if_neg hdata, if_neg (List.cons_ne_nil second rest)] at hclean
                rw [ih hclean]
                rfl

/-! ## Seams -/

variable (tables)

/-- A text is put behind another one: nothing, or whole lines that are read by themselves. -/
def Seam (kind : SplitKind) (front back : Text) : Prop :=
  front = [] ∨ back = [] ∨
    front.getLast? = some newline ∧
      ∀ next ∈ (linesOf back).head?, kind.continues tables next = true →
        kind.takes tables (linesOf front) = false

/-- The parts behind a text have seams only. -/
def Seams (kind : SplitKind) : Text → List Part → Prop
  | _, [] => True
  | front, part :: rest =>
      Seam tables kind front part.written ∧ Seams kind (front ++ part.written) rest

/-- The lines of a part by themselves: a run that is kept has all of its own. -/
def Part.Reads (kind : SplitKind) (part : Part) (lines : List Text) : Prop :=
  if part.keep then lines = linesOf part.original
  else kind.read tables (linesOf part.written) = some lines

/-- A part can be read by itself, and a run that is kept is what it was. -/
def Part.Restored (kind : SplitKind) (part : Part) : Prop :=
  ∃ lines, kind.read tables (linesOf part.written) = some lines ∧ part.Reads tables kind lines

/-- The result is read as the lines of its parts in order: no line of a run that is kept is
fused with another one, and no line of a tail is read with one. -/
def Recovered (kind : SplitKind) (parts : List Part) : Prop :=
  ∃ pieces, List.Forall₂ (Part.Reads tables kind) parts pieces ∧
    kind.read tables (linesOf (joined parts)) = some pieces.flatten

variable {tables}

theorem read_nil (kind : SplitKind) : kind.read tables (linesOf []) = some [] := by
  cases kind <;> rfl

theorem Seam.read {front back : Text} (hseam : Seam tables kind front back) {left right : List Text}
    (hleft : kind.read tables (linesOf front) = some left)
    (hright : kind.read tables (linesOf back) = some right) :
    kind.read tables (linesOf (front ++ back)) = some (left ++ right) := by
  rcases hseam with rfl | rfl | ⟨hends, hclean⟩
  · rw [read_nil] at hleft
    rw [List.nil_append, hright, ← Option.some.inj hleft, List.nil_append]
  · rw [read_nil] at hright
    rw [List.append_nil, hleft, ← Option.some.inj hright, List.append_nil]
  · rcases eq_or_ne back [] with rfl | hback
    · rw [read_nil] at hright
      rw [List.append_nil, hleft, ← Option.some.inj hright, List.append_nil]
    rw [linesOf_append hends hback]
    cases kind with
    | log =>
        have hlines := expandLines_append hclean
        rw [show expandLines tables (linesOf front) = some left from hleft,
          show expandLines tables (linesOf back) = some right from hright] at hlines
        exact hlines
    | search =>
        obtain rfl := Option.some.inj hleft
        obtain rfl := Option.some.inj hright
        exact congrArg some (searchUnheadingLines_append hclean)

theorem read_joined {parts : List Part} (hrestored : ∀ part ∈ parts, part.Restored tables kind)
    {front : Text} {left : List Text} (hleft : kind.read tables (linesOf front) = some left)
    (hseams : Seams tables kind front parts) :
    ∃ pieces, List.Forall₂ (Part.Reads tables kind) parts pieces ∧
      kind.read tables (linesOf (front ++ joined parts)) = some (left ++ pieces.flatten) := by
  induction parts generalizing front left with
  | nil =>
      refine ⟨[], .nil, ?_⟩
      rw [joined, List.map_nil, List.flatten_nil, List.append_nil, hleft, List.flatten_nil,
        List.append_nil]
  | cons part rest ih =>
      obtain ⟨hpart, hrest⟩ := List.forall_mem_cons.mp hrestored
      obtain ⟨lines, hread, hlines⟩ := hpart
      obtain ⟨pieces, hpieces, hjoined⟩ := ih hrest (hseams.1.read hleft hread) hseams.2
      refine ⟨lines :: pieces, .cons hlines hpieces, ?_⟩
      rw [joined, List.map_cons, List.flatten_cons, List.flatten_cons, ← List.append_assoc,
        ← List.append_assoc]
      exact hjoined

/-- What is read by itself is read in its place if all seams are clean. -/
theorem recovered_of_seams {parts : List Part}
    (hrestored : ∀ part ∈ parts, part.Restored tables kind) (hseams : Seams tables kind [] parts) :
    Recovered tables kind parts :=
  read_joined hrestored (read_nil kind) hseams

end

/-! ## Results -/

def exampleContent : Text := text "b.py:1:noise noise noise\n\na.py:2:hit\n"

def exampleSettings : RouterSettings ℚ := ⟨1 / 2, false, some 0⟩

/-- A record scores if it has the query. -/
def exampleScorer : Scorer ℚ := fun records query =>
  some (records.map fun record => if query <:+: record then 1 else 0)

def exampleRuns : List (Bool × Text) :=
  [(false, text "b.py:1:noise noise noise\n\n"), (true, text "a.py:2:hit\n")]

theorem plan_example :
    planRelevanceSplit asciiTables id exampleScorer exampleSettings.config exampleContent
      (text "hit") = some exampleRuns := by
  decide +kernel

end Legroom.RelevanceSplit
