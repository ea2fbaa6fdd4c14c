import Legroom.Lib.Float64
import Legroom.Transforms.LosslessRouter

/-!
# The relevance split

A content is cut into records, and each record is kept if its score reaches a cut.  Neighbours
that are kept, or not, make one run.
-/

namespace Legroom.RelevanceSplit

open Python LosslessRouter

/-! ## Records -/

/-- The characters that end a line of `splitlines`. -/
def isLineBreak (char : CodePoint) : Bool :=
  (0x0A ≤ char && char ≤ 0x0D) || (0x1C ≤ char && char ≤ 0x1E) || char == 0x85 ||
    char == 0x2028 || char == 0x2029

/-- `splitlines(keepends=True)` -/
def splitlinesKeepEnds : Text → List Text
  | [] => []
  | char :: rest =>
      if isLineBreak char ∧ ¬(char = 0x0D ∧ rest.head? = some newline) then
        [char] :: splitlinesKeepEnds rest
      else
        match splitlinesKeepEnds rest with
        | [] => [[char]]
        | line :: lines => (char :: line) :: lines

section

variable (tables : CharTables)

/-- Lines up to a blank one each. -/
def blocks : List Text → List (List Text)
  | [] => []
  | line :: rest =>
      if isBlank tables line then [line] :: blocks rest
      else
        match blocks rest with
        | [] => [[line]]
        | block :: more => (line :: block) :: more

end

def isIndented (line : Text) : Bool :=
  line.head?.any fun char => char == codePoint ' ' || char == tab

/-- Windows of lines, each with the indented lines behind it.  There is no result if a window
is empty, for then the loop never ends; `fuel` is the number of lines. -/
def windows (window : ℕ) : ℕ → List Text → Option (List Text)
  | _, [] => some []
  | 0, _ :: _ => none
  | fuel + 1, line :: rest =>
      let block := line :: rest
      let taken := block.take window ++ (block.drop window).takeWhile isIndented
      (windows window fuel (block.drop taken.length)).map (taken.flatten :: ·)

def packBlock (window : ℕ) (maxChars : ℤ) (block : List Text) : Option (List Text) :=
  if block.length ≤ window ∧ ((block.map List.length).sum : ℤ) ≤ maxChars then some [block.flatten]
  else windows window block.length block

def segment (tables : CharTables) (window : ℕ) (maxChars : ℤ) (content : Text) :
    Option (List Text) :=
  let lines := splitlinesKeepEnds content
  if lines.length ≤ 1 then some (if content = [] then [] else [content])
  else ((blocks tables lines).mapM (packBlock window maxChars)).map List.flatten

theorem flatten_splitlinesKeepEnds (content : Text) :
    (splitlinesKeepEnds content).flatten = content := by
  induction content with
  | nil => rfl
  | cons char rest ih =>
      rw [splitlinesKeepEnds]
      split_ifs
      · rw [List.flatten_cons, ih, List.singleton_append]
      · cases hlines : splitlinesKeepEnds rest with
        | nil =>
            rw [hlines] at ih
            rw [← ih]
            rfl
        | cons line lines =>
            rw [hlines, List.flatten_cons] at ih
            dsimp only
            rw [List.flatten_cons, List.cons_append, ih]

theorem flatten_blocks (tables : CharTables) (lines : List Text) :
    (blocks tables lines).flatten = lines := by
  induction lines with
  | nil => rfl
  | cons line rest ih =>
      rw [blocks]
      split_ifs
      · rw [List.flatten_cons, ih, List.singleton_append]
      · cases hblocks : blocks tables rest with
        | nil =>
            rw [hblocks] at ih
            rw [← ih]
            rfl
        | cons block more =>
            rw [hblocks, List.flatten_cons] at ih
            dsimp only
            rw [List.flatten_cons, List.cons_append, ih]

theorem taken_append (window : ℕ) (block : List Text) :
    let taken := block.take window ++ (block.drop window).takeWhile isIndented
    taken ++ block.drop taken.length = block := by
  intro taken
  have hfront : taken <+: block := by
    refine ⟨(block.drop window).dropWhile isIndented, ?_⟩
    rw [List.append_assoc, List.takeWhile_append_dropWhile, List.take_append_drop]
  obtain ⟨rest, hrest⟩ := hfront
  rw [← hrest, List.drop_left]

variable {window : ℕ} {block records : List Text}

theorem flatten_windows {fuel : ℕ} (hrecords : windows window fuel block = some records) :
    records.flatten = block.flatten := by
  induction fuel generalizing block records with
  | zero =>
      cases block with
      | nil => rw [← Option.some.inj hrecords]
      | cons line rest => cases hrecords
  | succ fuel ih =>
      cases block with
      | nil => rw [← Option.some.inj hrecords]
      | cons line rest =>
          obtain ⟨more, hmore, rfl⟩ := Option.map_eq_some_iff.mp hrecords
          rw [List.flatten_cons, ih hmore, ← List.flatten_append, taken_append]

/-- Windows of at least one line come to an end. -/
theorem windows_isSome {fuel : ℕ} (hwindow : 0 < window) (hfuel : block.length ≤ fuel) :
    (windows window fuel block).isSome := by
  induction fuel generalizing block with
  | zero =>
      rw [List.length_eq_zero_iff.mp (Nat.le_zero.mp hfuel)]
      rfl
  | succ fuel ih =>
      cases block with
      | nil => rfl
      | cons line rest =>
          rw [windows, Option.isSome_map]
          refine ih ?_
          rw [List.length_drop, List.length_append, List.length_take, List.length_cons]
          rw [List.length_cons] at hfuel
          omega

theorem flatten_packBlock {maxChars : ℤ}
    (hrecords : packBlock window maxChars block = some records) :
    records.flatten = block.flatten := by
  rw [packBlock] at hrecords
  split_ifs at hrecords
  · rw [← Option.some.inj hrecords, List.flatten_singleton]
  · exact flatten_windows hrecords

variable {tables : CharTables}

theorem flatten_segment {maxChars : ℤ} {content : Text}
    (hrecords : segment tables window maxChars content = some records) :
    records.flatten = content := by
  rw [segment] at hrecords
  split_ifs at hrecords with hfew hempty
  · rw [← Option.some.inj hrecords, hempty]
    rfl
  · rw [← Option.some.inj hrecords, List.flatten_singleton]
  · obtain ⟨packed, hpacked, rfl⟩ := Option.map_eq_some_iff.mp hrecords
    have hblocks : ∀ {found : List (List Text)} {packed : List (List Text)},
        found.mapM (packBlock window maxChars) = some packed →
          packed.flatten.flatten = found.flatten.flatten := by
      intro found
      induction found with
      | nil =>
          intro packed hpacked
          obtain rfl := Option.some.inj hpacked
          rfl
      | cons block found ih =>
          intro packed hpacked
          obtain ⟨first, rest, hfirst, hrest, rfl⟩ := mapM_cons_eq_some.mp hpacked
          rw [List.flatten_cons, List.flatten_cons, List.flatten_append, List.flatten_append,
            flatten_packBlock hfirst, ih hrest]
    rw [hblocks hpacked, flatten_blocks, flatten_splitlinesKeepEnds]

theorem segment_isSome (tables : CharTables) (hwindow : 0 < window) (maxChars : ℤ)
    (content : Text) :
    (segment tables window maxChars content).isSome := by
  rw [segment]
  split_ifs
  · rfl
  · rfl
  · rw [Option.isSome_map]
    refine isSome_mapM.mpr fun block _ => ?_
    rw [packBlock]
    split_ifs
    · rfl
    · exact windows_isSome hwindow le_rfl

/-! ## The cut -/

section

variable {F : Type*} [Float64 F]

open Float64

/-- The values below a cut, and the best cut so far. -/
structure OtsuState (F : Type*) where
  w0 : F
  sum0 : F
  bestVar : F
  bestT : F

def otsuStep (count total : F) (state : OtsuState F) (pair : F × F) : OtsuState F :=
  let w0 := add state.w0 (1.0 : F)
  let sum0 := add state.sum0 pair.1
  let w1 := sub count w0
  let m0 := div sum0 w0
  let m1 := div (sub total sum0) w1
  let between := mul (mul w0 w1) (mul (sub m0 m1) (sub m0 m1))
  if lt state.bestVar between then ⟨w0, sum0, between, div (add pair.1 pair.2) (2.0 : F)⟩
  else { state with w0, sum0 }

/-- The cut with the largest variance between what is below and above it. -/
def otsuThreshold (values : List F) : Option F :=
  let sorted := values.mergeSort fun left right => le left right
  sorted.head?.map fun first =>
    let start : OtsuState F := ⟨(0.0 : F), (0.0 : F), sub (0.0 : F) (1.0 : F), first⟩
    ((sorted.zip sorted.tail).foldl (otsuStep (ofNat sorted.length) (sum sorted)) start).bestT

/-- `round9` is `round` to 9 digits. -/
def adaptiveThreshold (round9 : F → F) (values : List F) (floor : F) : F :=
  match values with
  | [] => floor
  | first :: rest =>
      if rest.all fun value =>
          le (round9 value) (round9 first) && le (round9 first) (round9 value) then
        floor
      else
        match otsuThreshold (first :: rest) with
        | some cut => if lt cut floor then floor else cut
        | none => floor

end

/-! ## Runs -/

/-- A record joins the last run if both are kept, or not. -/
def addRecord (runs : List (Bool × Text)) (marked : Bool × Text) : List (Bool × Text) :=
  match runs.getLast? with
  | some (keep, text) =>
      if keep = marked.1 then runs.dropLast ++ [(keep, text ++ marked.2)] else runs ++ [marked]
  | none => [marked]

structure SplitConfig (F : Type*) where
  threshold : F
  adaptive : Bool
  window : ℕ
  maxChars : ℤ
  maxRecords : Option ℤ

/-- The cut for the scores of one content. -/
def SplitConfig.cut {F : Type*} [Float64 F] (config : SplitConfig F) (round9 : F → F)
    (scores : List F) : F :=
  if config.adaptive then adaptiveThreshold round9 scores config.threshold else config.threshold

/-- `score_batch`, which gives nothing where it raises. -/
abbrev Scorer (F : Type*) := List Text → Text → Option (List F)

def planRelevanceSplit {F : Type*} [Float64 F] (tables : CharTables) (round9 : F → F)
    (scorer : Scorer F) (config : SplitConfig F) (content query : Text) :
    Option (List (Bool × Text)) :=
  if isBlank tables query then some [(true, content)]
  else
    (segment tables config.window config.maxChars content).bind fun records =>
      if records.length < 2 ∨
          config.maxRecords.any fun most => most ≠ 0 ∧ most < (records.length : ℤ) then
        some [(true, content)]
      else
        (scorer records query).map fun scores =>
          ((records.zip scores).map fun (record, score) =>
            (Float64.le (config.cut round9 scores) score, record)).foldl addRecord []

/-- Runs of neighbours that are marked alike. -/
def Grouped (marked runs : List (Bool × Text)) : Prop :=
  ∃ groups : List (Bool × List Text),
    runs = groups.map (fun group => (group.1, group.2.flatten)) ∧
      groups.flatMap (fun group => group.2.map (group.1, ·)) = marked

variable {marked runs : List (Bool × Text)}

theorem Grouped.addRecord (hgrouped : Grouped marked runs) (next : Bool × Text) :
    Grouped (marked ++ [next]) (addRecord runs next) := by
  obtain ⟨groups, rfl, rfl⟩ := hgrouped
  rw [RelevanceSplit.addRecord]
  rcases List.eq_nil_or_concat groups with rfl | ⟨front, last, rfl⟩
  · refine ⟨[(next.1, [next.2])], ?_, rfl⟩
    rw [List.map_singleton, List.flatten_singleton]
    rfl
  · rw [List.concat_eq_append, List.map_append, List.map_singleton, List.getLast?_concat]
    dsimp only
    split_ifs with hsame
    · refine ⟨front ++ [(last.1, last.2 ++ [next.2])], ?_, ?_⟩
      · rw [List.dropLast_concat, List.map_append, List.map_singleton, List.flatten_append,
          List.flatten_singleton]
      · rw [List.flatMap_append, List.flatMap_append, List.flatMap_singleton,
          List.flatMap_singleton, List.map_append, List.map_singleton, List.append_assoc, hsame]
    · refine ⟨front ++ [last] ++ [(next.1, [next.2])], ?_, ?_⟩
      · rw [List.map_append, List.map_append, List.map_singleton, List.map_singleton,
          List.flatten_singleton]
      · rw [List.flatMap_append, List.flatMap_singleton]
        rfl

theorem grouped_foldl (hgrouped : Grouped marked runs) (more : List (Bool × Text)) :
    Grouped (marked ++ more) (more.foldl RelevanceSplit.addRecord runs) := by
  induction more generalizing marked runs with
  | nil => rwa [List.append_nil]
  | cons next more ih =>
      rw [List.foldl_cons, ← List.singleton_append, ← List.append_assoc]
      exact ih (hgrouped.addRecord next)

theorem Grouped.flatten (hgrouped : Grouped marked runs) :
    (runs.map Prod.snd).flatten = (marked.map Prod.snd).flatten := by
  obtain ⟨groups, rfl, rfl⟩ := hgrouped
  induction groups with
  | nil => rfl
  | cons group groups ih =>
      rw [List.map_cons, List.map_cons, List.flatten_cons, ih, List.flatMap_cons, List.map_append,
        List.flatten_append, List.map_map]
      congr 1
      exact congrArg List.flatten (List.map_id group.2).symm

/-- The runs make up the content, and a record is in a run that is kept if and only if its score
reaches the cut.  Where nothing is split there is one run. -/
theorem planRelevanceSplit_cases {F : Type*} [Float64 F] {round9 : F → F} {scorer : Scorer F}
    (hscorer : ∀ records query scores, scorer records query = some scores →
      scores.length = records.length) {config : SplitConfig F} {content query : Text}
    (hruns : planRelevanceSplit tables round9 scorer config content query = some runs) :
    (runs.map Prod.snd).flatten = content ∧
      (runs = [(true, content)] ∨
        ∃ records scores, segment tables config.window config.maxChars content = some records ∧
          scorer records query = some scores ∧
          Grouped ((records.zip scores).map fun (record, score) =>
            (Float64.le (config.cut round9 scores) score, record)) runs) := by
  have hwhole : (([(true, content)] : List (Bool × Text)).map Prod.snd).flatten = content := by
    rw [List.map_singleton, List.flatten_singleton]
  rw [planRelevanceSplit] at hruns
  split_ifs at hruns with hquery
  · obtain rfl := Option.some.inj hruns
    exact ⟨hwhole, .inl rfl⟩
  obtain ⟨records, hrecords, hruns⟩ := Option.bind_eq_some_iff.mp hruns
  split_ifs at hruns with hfew
  · obtain rfl := Option.some.inj hruns
    exact ⟨hwhole, .inl rfl⟩
  obtain ⟨scores, hscores, rfl⟩ := Option.map_eq_some_iff.mp hruns
  have hempty : Grouped [] [] := ⟨[], rfl, rfl⟩
  have hgrouped := grouped_foldl hempty ((records.zip scores).map fun (record, score) =>
    (Float64.le (config.cut round9 scores) score, record))
  rw [List.nil_append] at hgrouped
  refine ⟨?_, .inr ⟨records, scores, hrecords, hscores, hgrouped⟩⟩
  have hrestored : ((records.zip scores).map fun (record, score) =>
      (Float64.le (config.cut round9 scores) score, record)).map Prod.snd = records := by
    rw [List.map_map]
    exact List.map_fst_zip (hscorer records query scores hscores).ge
  rw [hgrouped.flatten, hrestored, flatten_segment hrecords]

/-- There is a plan if windows have lines and the scorer returns. -/
theorem planRelevanceSplit_isSome {F : Type*} [Float64 F] (tables : CharTables) (round9 : F → F)
    {scorer : Scorer F} {config : SplitConfig F} (hwindow : 0 < config.window) {query : Text}
    (hscorer : ∀ records, (scorer records query).isSome) (content : Text) :
    (planRelevanceSplit tables round9 scorer config content query).isSome := by
  rw [planRelevanceSplit]
  split_ifs
  · rfl
  obtain ⟨records, hrecords⟩ := Option.isSome_iff_exists.mp
    (segment_isSome tables hwindow config.maxChars content)
  rw [hrecords, Option.bind_some]
  split_ifs
  · rfl
  · rw [Option.isSome_map]
    exact hscorer records

end Legroom.RelevanceSplit
