import Legroom.Lib.Greedy
import Legroom.Lib.Thinning
import Legroom.Transforms.LogTraces
import Mathlib.Tactic.NormNum

/-!
# The selection of log lines

What is selected are lines of the log, at most once each, and markers in the places of dropped
frames.  The cut to the size of the output takes the best of them.
-/

namespace Legroom.Transforms

namespace Log

open LogTemplate (Text)

/-! ## Parsed lines -/

section

variable {F : Type*} (chars : LogChars) (config : LogCompressorConfig F)
variable (state : TraceState)

theorem map_lineNumber_parseFrom (number : ℕ) (lines : List Text) :
    (parseFrom chars config state number lines).map (·.lineNumber) =
      List.range' number lines.length := by
  induction lines generalizing state number with
  | nil => rfl
  | cons content lines ih => exact congrArg (number :: ·) (ih _ (number + 1))

theorem map_content_parseFrom (number : ℕ) (lines : List Text) :
    (parseFrom chars config state number lines).map (·.content) = lines := by
  induction lines generalizing state number with
  | nil => rfl
  | cons content lines ih => exact congrArg (content :: ·) (ih _ (number + 1))

theorem score_parseFrom (number : ℕ) (lines : List Text) :
    ∀ line ∈ parseFrom chars config state number lines, line.score = scoreLogLine line := by
  induction lines generalizing state number with
  | nil => exact fun line hline => absurd hline List.not_mem_nil
  | cons content lines ih => exact List.forall_mem_cons.mpr ⟨rfl, ih _ (number + 1)⟩

end

/-- Lines that have their places as numbers, and their scores. -/
structure Parsed (lines : List LogLine) : Prop where
  numbers : lines.map (·.lineNumber) = List.range lines.length
  scores : ∀ line ∈ lines, line.score = scoreLogLine line

variable (chars : LogChars)

theorem map_content_parseLines {F : Type*} (config : LogCompressorConfig F) (lines : List Text) :
    (parseLines chars config lines).map (·.content) = lines :=
  map_content_parseFrom chars config _ 0 lines

theorem length_parseLines {F : Type*} (config : LogCompressorConfig F) (lines : List Text) :
    (parseLines chars config lines).length = lines.length := by
  rw [← List.length_map (f := (·.content)), map_content_parseLines]

theorem parsed_parseLines {F : Type*} (config : LogCompressorConfig F) (lines : List Text) :
    Parsed (parseLines chars config lines) := by
  refine ⟨?_, score_parseFrom chars config _ 0 lines⟩
  rw [length_parseLines, List.range_eq_range']
  exact map_lineNumber_parseFrom chars config _ 0 lines

namespace Parsed

variable {lines : List LogLine} {line other : LogLine}

theorem pairwise (hlines : Parsed lines) :
    lines.Pairwise fun left right => left.lineNumber < right.lineNumber := by
  apply List.pairwise_map.mp
  rw [hlines.numbers]
  exact List.pairwise_lt_range

/-- A line is at the place of its number. -/
theorem getElem?_lineNumber (hlines : Parsed lines) (hline : line ∈ lines) :
    lines[line.lineNumber]? = some line := by
  obtain ⟨index, hindex, rfl⟩ := List.getElem_of_mem hline
  have hnumber : (lines.map (·.lineNumber))[index]? = some index := by
    rw [hlines.numbers, List.getElem?_range hindex]
  rw [List.getElem?_map, List.getElem?_eq_getElem hindex] at hnumber
  have hplace : lines[index].lineNumber = index := Option.some_inj.mp hnumber
  rw [hplace, List.getElem?_eq_getElem hindex]

theorem eq_of_lineNumber (hlines : Parsed lines) (hline : line ∈ lines) (hother : other ∈ lines)
    (hnumber : other.lineNumber = line.lineNumber) : other = line := by
  have hsame := hlines.getElem?_lineNumber hother
  rw [hnumber, hlines.getElem?_lineNumber hline] at hsame
  exact (Option.some_inj.mp hsame).symm

theorem lineNumber_lt (hlines : Parsed lines) (hline : line ∈ lines) :
    line.lineNumber < lines.length :=
  (List.getElem?_eq_some_iff.mp (hlines.getElem?_lineNumber hline)).1

/-- No line of a log has the score of a marker. -/
theorem frameMarker_not_mem (hlines : Parsed lines) (lineNumber runLen : ℕ) :
    frameMarker lineNumber runLen ∉ lines := by
  intro hmarker
  have hscore := hlines.scores _ hmarker
  have hmarkerScore : (frameMarker lineNumber runLen).score = 4 / 5 := rfl
  have hlineScore : scoreLogLine (frameMarker lineNumber runLen) = 2 / 5 := by
    rw [scoreLogLine]
    simp only [frameMarker, LogLine.new, levelScore]
    norm_num
  rw [hmarkerScore, hlineScore] at hscore
  norm_num at hscore

end Parsed

/-- The marker of a run of trace lines, in the place of the first of them.  None of them is the
head of a chained trace. -/
def IsRunMarker (lines : List LogLine) (marker : LogLine) : Prop :=
  ∃ run ≠ [], run <+: lines.drop marker.lineNumber ∧
    marker = frameMarker marker.lineNumber run.length ∧
    ∀ line ∈ run, line.isStackTrace = true ∧ isChainHeadLine line.content = false

/-- What a selection has in the place of a line: the line, or the marker of its run. -/
def Shows (lines : List LogLine) (line : LogLine) : Prop :=
  line ∈ lines ∨ IsRunMarker lines line

section

variable {lines : List LogLine}

theorem Parsed.isRunMarker_not_mem (hlines : Parsed lines) {marker : LogLine}
    (hmarker : IsRunMarker lines marker) : marker ∉ lines := by
  obtain ⟨run, -, -, heq, -⟩ := hmarker
  rw [heq]
  exact hlines.frameMarker_not_mem _ _

/-- A run begins at its marker. -/
theorem Parsed.head_mem_run (hlines : Parsed lines) {run : List LogLine} {number : ℕ}
    {line : LogLine} (hrun : run ≠ []) (hstart : run <+: lines.drop number)
    (hline : line ∈ lines) (hnumber : line.lineNumber = number) : line ∈ run := by
  obtain ⟨first, rest, rfl⟩ := List.exists_cons_of_ne_nil hrun
  obtain ⟨after, hafter⟩ := hstart
  have hhead : lines[number]? = some first := by
    rw [← List.head?_drop, ← hafter]
    rfl
  rw [← hnumber, hlines.getElem?_lineNumber hline] at hhead
  rw [Option.some_inj.mp hhead]
  exact List.mem_cons_self

variable {stack : List LogLine}

theorem isInfix_of_mem_stackTraces (hstack : stack ∈ stackTraces lines) : stack <:+: lines :=
  isInfix_of_mem_splitOnP (List.mem_of_mem_filter hstack)

theorem isStackTrace_of_mem_stackTraces (hstack : stack ∈ stackTraces lines) :
    ∀ line ∈ stack, line.isStackTrace = true := by
  intro line hline
  have hnot := not_sep_of_mem_splitOnP (List.mem_of_mem_filter hstack) line hline
  rwa [Bool.not_eq_false'] at hnot

/-- A run of a trace is a run of the log. -/
theorem Parsed.isRunMarker_frameMarker (hlines : Parsed lines) (hstack : stack ∈ stackTraces lines)
    {first : LogLine} {rest : List LogLine} (hrun : first :: rest <:+: stack)
    (hheads : ∀ line ∈ first :: rest, isChainHeadLine line.content = false) :
    IsRunMarker lines (frameMarker first.lineNumber (rest.length + 1)) := by
  refine ⟨first :: rest, List.cons_ne_nil first rest, ?_, rfl, fun line hline =>
    ⟨isStackTrace_of_mem_stackTraces hstack line (hrun.subset hline), hheads line hline⟩⟩
  obtain ⟨before, after, hsplit⟩ := hrun.trans (isInfix_of_mem_stackTraces hstack)
  have hfirst : lines[before.length]? = some first := by
    rw [← hsplit, List.append_assoc, List.getElem?_append_right le_rfl, Nat.sub_self]
    rfl
  have hnumber : first.lineNumber = before.length := by
    have hnumbers : (lines.map (·.lineNumber))[before.length]? = some first.lineNumber := by
      rw [List.getElem?_map, hfirst]
      rfl
    rw [hlines.numbers, List.getElem?_range (List.getElem?_eq_some_iff.mp hfirst).1] at hnumbers
    exact (Option.some_inj.mp hnumbers).symm
  refine ⟨after, ?_⟩
  show first :: rest ++ after = lines.drop first.lineNumber
  rw [hnumber, ← hsplit, List.append_assoc, List.drop_left]

end

/-! ## Inserted lines -/

section

variable {lines more : List LogLine} {line other : LogLine}

theorem subset_insertLine : lines ⊆ insertLine lines line := by
  rw [insertLine]
  split_ifs
  · exact List.Subset.refl lines
  · exact List.subset_append_left lines [line]

theorem mem_insertLine (hother : other ∈ insertLine lines line) :
    other ∈ lines ∨ other = line := by
  rw [insertLine] at hother
  split_ifs at hother
  · exact .inl hother
  · exact (List.mem_append.mp hother).imp_right List.mem_singleton.mp

theorem exists_lineNumber_insertLine :
    ∃ other ∈ insertLine lines line, other.lineNumber = line.lineNumber := by
  rw [insertLine]
  split_ifs with hany
  · obtain ⟨other, hother, hnumber⟩ := List.any_eq_true.mp hany
    exact ⟨other, hother, of_decide_eq_true hnumber⟩
  · exact ⟨line, List.mem_append_right lines (List.mem_singleton_self line), rfl⟩

theorem nodup_insertLine (hlines : (lines.map (·.lineNumber)).Nodup) :
    ((insertLine lines line).map (·.lineNumber)).Nodup := by
  rw [insertLine]
  split_ifs with hany
  · exact hlines
  · rw [List.map_append]
    refine hlines.append (List.nodup_singleton line.lineNumber)
      (List.disjoint_singleton.mpr fun hmem => hany ?_)
    obtain ⟨other, hother, hnumber⟩ := List.mem_map.mp hmem
    exact List.any_eq_true.mpr ⟨other, hother, decide_eq_true hnumber⟩

theorem subset_insertLines : lines ⊆ insertLines lines more := by
  induction more generalizing lines with
  | nil => exact List.Subset.refl lines
  | cons line more ih => exact List.Subset.trans subset_insertLine ih

theorem mem_insertLines (hline : line ∈ insertLines lines more) : line ∈ lines ∨ line ∈ more := by
  induction more generalizing lines with
  | nil => exact .inl hline
  | cons first more ih =>
      rcases ih hline with hinserted | hmore
      · refine (mem_insertLine hinserted).imp_right fun heq => ?_
        rw [heq]
        exact List.mem_cons_self
      · exact .inr (List.mem_cons_of_mem first hmore)

theorem nodup_insertLines (hlines : (lines.map (·.lineNumber)).Nodup) :
    ((insertLines lines more).map (·.lineNumber)).Nodup := by
  induction more generalizing lines with
  | nil => exact hlines
  | cons line more ih => exact ih (nodup_insertLine hlines)

theorem exists_lineNumber_insertLines (hline : line ∈ more) :
    ∃ other ∈ insertLines lines more, other.lineNumber = line.lineNumber := by
  induction more generalizing lines with
  | nil => exact absurd hline List.not_mem_nil
  | cons first more ih =>
      rcases List.mem_cons.mp hline with rfl | hline
      · obtain ⟨other, hother, hnumber⟩ := @exists_lineNumber_insertLine lines line
        have hkept : insertLine lines line ⊆ insertLines (insertLine lines line) more :=
          subset_insertLines
        exact ⟨other, hkept hother, hnumber⟩
      · exact ih hline

/-- A line comes in if no other line takes its number. -/
theorem mem_insertLines_of_eq (hline : line ∈ more)
    (heq : ∀ other, other ∈ lines ∨ other ∈ more → other.lineNumber = line.lineNumber →
      other = line) : line ∈ insertLines lines more := by
  obtain ⟨other, hother, hnumber⟩ := @exists_lineNumber_insertLines lines _ _ hline
  exact heq other (mem_insertLines hother) hnumber ▸ hother

theorem insertLines_append (left right : List LogLine) :
    insertLines lines (left ++ right) = insertLines (insertLines lines left) right :=
  List.foldl_append

end

/-! ## Categories -/

section

variable {F : Type*} (chars : LogChars) (config : LogCompressorConfig F)
variable {lines : List LogLine} {line : LogLine}

/-- What is filled up to a count keeps what it has and gets candidates only. -/
theorem foldl_insertLine {maxCount : ℕ} {out candidates : List LogLine} :
    let filled := candidates.foldl
      (fun out line => if maxCount ≤ out.length then out else insertLine out line) out
    out ⊆ filled ∧ ∀ line ∈ filled, line ∈ out ∨ line ∈ candidates := by
  induction candidates generalizing out with
  | nil => exact ⟨List.Subset.refl out, fun line => Or.inl⟩
  | cons candidate candidates ih =>
      have hsubset : out ⊆ if maxCount ≤ out.length then out else insertLine out candidate := by
        split_ifs
        · exact List.Subset.refl out
        · exact subset_insertLine
      have hmem : ∀ line ∈ if maxCount ≤ out.length then out else insertLine out candidate,
          line ∈ out ∨ line = candidate := by
        split_ifs
        · exact fun line => Or.inl
        · exact fun line => mem_insertLine
      refine ⟨List.Subset.trans hsubset ih.1, fun line hline => ?_⟩
      rcases ih.2 line hline with hout | hlater
      · refine (hmem line hout).imp_right fun heq => ?_
        rw [heq]
        exact List.mem_cons_self
      · exact .inr (List.mem_cons_of_mem candidate hlater)

theorem mem_of_mem_selectWithFirstLast {maxCount : ℕ}
    (hline : line ∈ selectWithFirstLast config lines maxCount) : line ∈ lines := by
  have hend : ∀ {kept : Bool} {edge : Option LogLine}, (∀ line, edge = some line → line ∈ lines) →
      ∀ line ∈ if kept then edge.toList else [], line ∈ lines := by
    intro kept edge hedge line hline
    cases kept with
    | false => exact absurd hline List.not_mem_nil
    | true => exact hedge line (Option.mem_toList.mp hline)
  by_cases hshort : lines.length ≤ maxCount
  · rwa [selectWithFirstLast, if_pos hshort] at hline
  · rw [selectWithFirstLast, if_neg hshort] at hline
    rcases foldl_insertLine.2 line hline with hends | hsorted
    · rcases mem_insertLines hends with hfirst | hlast
      · exact hend (fun _ => List.mem_of_mem_head?) line hfirst
      · exact hend (fun _ => List.mem_of_getLast?) line hlast
    · exact (List.mem_insertionSort ScoreOrder).mp hsorted

/-- The first and the last line are selected, whatever the count. -/
theorem ends_mem_selectWithFirstLast (hfirst : config.keepFirstError = true)
    (hlast : config.keepLastError = true)
    (hnodup : ∀ left ∈ lines, ∀ right ∈ lines, left.lineNumber = right.lineNumber → left = right)
    (maxCount : ℕ) (hline : lines.head? = some line ∨ lines.getLast? = some line) :
    line ∈ selectWithFirstLast config lines maxCount := by
  have hmem : line ∈ lines := hline.elim List.mem_of_mem_head? List.mem_of_getLast?
  by_cases hshort : lines.length ≤ maxCount
  · rwa [selectWithFirstLast, if_pos hshort]
  · rw [selectWithFirstLast, if_neg hshort, if_pos hfirst, if_pos hlast]
    apply foldl_insertLine.1
    rcases hline with hhead | hend
    · rw [hhead]
      exact subset_insertLines (List.mem_singleton_self line)
    · apply mem_insertLines_of_eq
      · rw [hend]
        exact List.mem_singleton_self line
      · intro other hother hnumber
        refine hnodup other ?_ line hmem hnumber
        rcases hother with hfirst | hlast
        · exact List.mem_of_mem_head? (Option.mem_toList.mp hfirst)
        · exact List.mem_of_getLast? (Option.mem_toList.mp hlast)

/-- A line of a collapsed or cut trace is a line of the log or a marker of its lines. -/
theorem shows_of_mem_stackLines (hlines : Parsed lines) {stack : List LogLine}
    (hstack : stack ∈ stackTraces lines) (hline : line ∈ stackLines config stack) :
    Shows lines line := by
  have htaken := List.mem_of_mem_take hline
  have hsubset := (isInfix_of_mem_stackTraces hstack).subset
  split_ifs at htaken
  · obtain ⟨parts, hparts⟩ := exists_parts stack config.traceHeadFrames config.traceAppFrames
    rcases hparts.mem_kept htaken with hkept | ⟨first, rest, rfl, hrun, hheads⟩
    · exact .inl (hsubset hkept)
    · exact .inr (hlines.isRunMarker_frameMarker hstack hrun hheads)
  · exact .inl (hsubset htaken)

theorem dedupeFrom_sublist (seen : List Text) (lines : List LogLine) :
    (dedupeFrom chars seen lines).Sublist lines := by
  induction lines generalizing seen with
  | nil => exact List.Sublist.refl []
  | cons line lines ih =>
      rw [dedupeFrom]
      split_ifs
      · exact (ih seen).cons line
      · exact (ih _).cons_cons line

theorem shows_of_mem_categoryLines (hlines : Parsed lines)
    (hline : line ∈ categoryLines chars config lines) : Shows lines line := by
  have hlevel : ∀ level maxCount,
      line ∈ selectWithFirstLast config (withLevel level lines) maxCount → Shows lines line :=
    fun level maxCount hselected =>
      .inl (List.mem_of_mem_filter (mem_of_mem_selectWithFirstLast config hselected))
  simp only [categoryLines, List.mem_append] at hline
  rcases hline with (((herror | hfail) | hwarning) | hstack) | hsummary
  · exact hlevel _ _ herror
  · exact hlevel _ _ hfail
  · have htaken := List.mem_of_mem_take hwarning
    split_ifs at htaken
    · exact .inl (List.mem_of_mem_filter ((dedupeFrom_sublist chars [] _).subset htaken))
    · exact .inl (List.mem_of_mem_filter htaken)
  · obtain ⟨stack, hstack, hline⟩ := List.mem_flatMap.mp hstack
    exact shows_of_mem_stackLines config hlines (List.mem_of_mem_take hstack) hline
  · split_ifs at hsummary
    · exact .inl (List.mem_of_mem_filter hsummary)
    · exact absurd hsummary List.not_mem_nil

/-! ## The selection -/

theorem shows_of_mem_chosenLines (hlines : Parsed lines)
    (hline : line ∈ chosenLines chars config lines) : Shows lines line := by
  rcases mem_insertLines hline with hselected | hcontext
  · rcases mem_insertLines hselected with hnone | hcategory
    · exact absurd hnone List.not_mem_nil
    · exact shows_of_mem_categoryLines chars config hlines hcategory
  · obtain ⟨index, -, hindex⟩ := List.mem_filterMap.mp hcontext
    exact .inl (List.mem_of_getElem? hindex)

theorem nodup_chosenLines : ((chosenLines chars config lines).map (·.lineNumber)).Nodup :=
  nodup_insertLines (nodup_insertLines List.nodup_nil)

/-- What is selected for itself is chosen if no marker takes its place. -/
theorem mem_chosenLines_of_category (hlines : Parsed lines) (hline : line ∈ lines)
    (hcategory : line ∈ categoryLines chars config lines)
    (hmarker : ∀ marker, IsRunMarker lines marker → marker.lineNumber ≠ line.lineNumber) :
    line ∈ chosenLines chars config lines := by
  apply subset_insertLines
  apply mem_insertLines_of_eq hcategory
  intro other hother hnumber
  rcases hother with hnone | hother
  · exact absurd hnone List.not_mem_nil
  · rcases shows_of_mem_categoryLines chars config hlines hother with hshown | hrun
    · exact hlines.eq_of_lineNumber hline hshown hnumber
    · exact absurd hnumber (hmarker other hrun)

/-- No marker takes the place of the head of a chained trace. -/
theorem Parsed.lineNumber_ne_of_isRunMarker (hlines : Parsed lines) (hline : line ∈ lines)
    (hhead : isChainHeadLine line.content = true) (marker : LogLine)
    (hmarker : IsRunMarker lines marker) : marker.lineNumber ≠ line.lineNumber := by
  intro hnumber
  obtain ⟨run, hrun, hstart, -, hheads⟩ := hmarker
  have hmem := hlines.head_mem_run hrun hstart hline hnumber.symm
  exact Bool.eq_false_iff.mp (hheads line hmem).2 hhead

/-- What the first lines of `categoryLines` select is chosen before any marker. -/
theorem mem_chosenLines_of_error (hlines : Parsed lines)
    (hline : line ∈ selectWithFirstLast config (withLevel .error lines) config.maxErrors) :
    line ∈ chosenLines chars config lines := by
  have hmem : ∀ line ∈ selectWithFirstLast config (withLevel .error lines) config.maxErrors,
      line ∈ lines := fun line hline =>
    List.mem_of_mem_filter (mem_of_mem_selectWithFirstLast config hline)
  apply subset_insertLines
  simp only [categoryLines, List.append_assoc]
  rw [insertLines_append]
  apply subset_insertLines
  apply mem_insertLines_of_eq hline
  intro other hother hnumber
  rcases hother with hnone | hother
  · exact absurd hnone List.not_mem_nil
  · exact hlines.eq_of_lineNumber (hmem line hline) (hmem other hother) hnumber

end

/-! ## The cut -/

instance : Std.Total ScoreOrder where
  total left right := by
    rcases lt_trichotomy left.score right.score with hlt | heq | hgt
    · exact .inr (.inl hlt)
    · exact (Nat.le_total left.lineNumber right.lineNumber).imp (fun hle => .inr ⟨heq.symm, hle⟩)
        fun hle => .inr ⟨heq, hle⟩
    · exact .inl (.inl hgt)

instance : IsTrans LogLine ScoreOrder where
  trans first second third := by
    rintro (hlt | ⟨heq, hle⟩) (hlt' | ⟨heq', hle'⟩)
    · exact .inl (hlt'.trans hlt)
    · exact .inl (heq'.trans_lt hlt)
    · exact .inl (hlt'.trans_eq heq)
    · exact .inr ⟨heq'.trans heq, hle.trans hle'⟩

instance : Std.Total LineOrder where
  total left right := Nat.le_total left.lineNumber right.lineNumber

instance : IsTrans LogLine LineOrder where
  trans _ _ _ := Nat.le_trans

section

variable {chosen : List LogLine}

theorem eq_of_scoreOrder (hchosen : (chosen.map (·.lineNumber)).Nodup) :
    ∀ left ∈ chosen, ∀ right ∈ chosen, ScoreOrder left right → ScoreOrder right left →
      left = right := by
  intro left hleft right hright hle hge
  apply List.inj_on_of_nodup_map hchosen hleft hright
  rcases hle with hlt | ⟨heq, hle⟩
  · rcases hge with hgt | ⟨heq, -⟩
    · exact absurd hgt hlt.asymm
    · exact absurd heq hlt.ne'
  · rcases hge with hgt | ⟨-, hge⟩
    · exact absurd heq hgt.ne'
    · exact Nat.le_antisymm hle hge

/-- The lines that are left are those with few better ones. -/
theorem mem_capLines (hchosen : (chosen.map (·.lineNumber)).Nodup) (adaptiveMax : ℕ)
    (line : LogLine) :
    line ∈ capLines adaptiveMax chosen ↔
      line ∈ chosen ∧ rankIn ScoreOrder chosen line < adaptiveMax := by
  have hperm := List.perm_insertionSort LineOrder chosen
  have hordered := (hperm.map (·.lineNumber)).nodup_iff.mpr hchosen
  rw [capLines]
  split_ifs with hlong
  · rw [List.mem_insertionSort, mem_take_insertionSort hordered.of_map (eq_of_scoreOrder hordered),
      hperm.mem_iff, rankIn_perm hperm]
  · rw [hperm.mem_iff]
    refine (and_iff_left_of_imp fun hline => ?_).symm
    rw [hperm.length_eq] at hlong
    exact (rankIn_lt_length hchosen.of_map (eq_of_scoreOrder hchosen) hline).trans_le
      (not_lt.mp hlong)

theorem capLines_subperm (adaptiveMax : ℕ) (chosen : List LogLine) :
    (capLines adaptiveMax chosen).Subperm chosen := by
  have hperm := List.perm_insertionSort LineOrder chosen
  rw [capLines]
  split_ifs
  · have hscores := List.perm_insertionSort ScoreOrder (chosen.insertionSort LineOrder)
    have htaken := List.take_sublist adaptiveMax
      ((chosen.insertionSort LineOrder).insertionSort ScoreOrder)
    exact (List.perm_insertionSort LineOrder _).subperm.trans
      (htaken.subperm.trans (hscores.trans hperm).subperm)
  · exact hperm.subperm

theorem pairwise_capLines (hchosen : (chosen.map (·.lineNumber)).Nodup) (adaptiveMax : ℕ) :
    (capLines adaptiveMax chosen).Pairwise fun left right =>
      left.lineNumber < right.lineNumber := by
  have hsorted : (capLines adaptiveMax chosen).Pairwise LineOrder := by
    rw [capLines]
    split_ifs
    · exact List.pairwise_insertionSort LineOrder _
    · exact List.pairwise_insertionSort LineOrder _
  have hnodup : ((capLines adaptiveMax chosen).map (·.lineNumber)).Nodup := by
    obtain ⟨part, hperm, hpart⟩ := capLines_subperm adaptiveMax chosen
    exact (hperm.map _).nodup_iff.mp (hchosen.sublist (hpart.map _))
  exact (hsorted.and (List.pairwise_map.mp hnodup)).imp fun hboth =>
    Nat.lt_of_le_of_ne hboth.1 hboth.2

end

/-! ## What a selection says about a log -/

/-- A selection in the order of the log, of lines and markers of runs, which is short of the log
by the lines that are missing without the markers that came in for them. -/
structure Accounts (lines selected : List LogLine) : Prop where
  ascending : selected.Pairwise fun left right => left.lineNumber < right.lineNumber
  shows : ∀ line ∈ selected, Shows lines line
  markers : ∀ line ∈ selected, IsRunMarker lines line → line ∉ lines
  sublist : (selected.filter (· ∈ lines)).Sublist lines
  missing : (lines.filter (· ∉ selected)).length =
    lines.length - selected.length + (selected.filter (· ∉ lines)).length

theorem Parsed.accounts {lines selected : List LogLine} (hlines : Parsed lines)
    (hascending : selected.Pairwise fun left right => left.lineNumber < right.lineNumber)
    (hshows : ∀ line ∈ selected, Shows lines line) : Accounts lines selected := by
  have hnodup : selected.Nodup := hascending.imp fun hlt heq => hlt.ne (congrArg _ heq)
  have hlinesNodup : lines.Nodup := hlines.pairwise.imp fun hlt heq => hlt.ne (congrArg _ heq)
  have hlength : selected.length ≤ lines.length := by
    have hnumbers : (selected.map (·.lineNumber)).Subperm (List.range lines.length) := by
      apply List.subperm_of_subset (List.pairwise_map.mpr (hascending.imp fun hlt => hlt.ne))
      intro number hnumber
      obtain ⟨line, hline, rfl⟩ := List.mem_map.mp hnumber
      rw [List.mem_range]
      rcases hshows line hline with hmem | ⟨run, hrun, hstart, -, -⟩
      · exact hlines.lineNumber_lt hmem
      · have hpositive := List.length_pos_iff.mpr hrun
        have hroom := hstart.length_le
        rw [List.length_drop] at hroom
        omega
    have hcount := hnumbers.length_le
    rwa [List.length_map, List.length_range] at hcount
  have hpresent : (selected.filter (· ∈ lines)).Perm (lines.filter (· ∈ selected)) := by
    apply (List.perm_ext_iff_of_nodup (hnodup.filter _) (hlinesNodup.filter _)).mpr
    intro line
    rw [List.mem_filter, List.mem_filter, decide_eq_true_eq, decide_eq_true_eq, and_comm]
  refine ⟨hascending, hshows, fun _ _ => hlines.isRunMarker_not_mem, ?_, ?_⟩
  · refine @sublist_of_pairwise _ (·.lineNumber) _ _ ?_
      ((hascending.filter _).imp fun hlt => Nat.le_of_lt hlt) hlines.pairwise
    exact hpresent.subperm.trans List.filter_sublist.subperm
  · have hlinesSplit := List.length_eq_length_filter_add (l := lines) (· ∈ selected)
    have hselectedSplit := List.length_eq_length_filter_add (l := selected) (· ∈ lines)
    have heq := hpresent.length_eq
    simp only [← decide_not] at hlinesSplit hselectedSplit
    omega

section

variable {F : Type*} [Float64 F] (chars : LogChars) (config : LogCompressorConfig F)

theorem Parsed.accounts_selectLines {lines : List LogLine} (hlines : Parsed lines)
    (tools : SmartCrusher.TextTools) (bias : F) :
    Accounts lines (selectLines chars config tools lines bias) := by
  have hnodup := @nodup_chosenLines _ chars config lines
  apply hlines.accounts (pairwise_capLines hnodup _)
  intro line hline
  exact shows_of_mem_chosenLines chars config hlines ((mem_capLines hnodup _ line).mp hline).1

end

end Log

/-!
## What a compressed log says and keeps

The lines that are missing from an output are those of its summary and one more for every
marker.  Errors at the ends of a log and heads of chained traces are chosen, and are cut only
for better lines.
-/

namespace Log

open LogTemplate (Text decimal)
open SmartCrusher (TextTools computeOptimalK computeOptimalK_le letterCaseTools)

/-! ## The summary -/

/-- The levels that the summary counts. -/
def summaryLevels : List LogLevel := [.error, .fail, .warn, .info]

theorem withLevel_ne_nil_iff {level : LogLevel} {lines : List LogLine} :
    0 < (withLevel level lines).length ↔ ∃ line ∈ lines, line.level = level := by
  rw [List.length_pos_iff_exists_mem]
  simp only [withLevel, List.mem_filter, decide_eq_true_eq]

/-- A summary that is not silent says how many lines are omitted. -/
theorem omissionSummary_eq (omitted : ℕ) (lines : List LogLine) :
    (0 < omitted ∧ (∃ line ∈ lines, line.level ∈ summaryLevels) → ∃ counts,
      omissionSummary omitted lines =
        ["[".toList ++ decimal omitted ++ " lines omitted: ".toList ++ counts ++ "]".toList]) ∧
    (¬(0 < omitted ∧ ∃ line ∈ lines, line.level ∈ summaryLevels) →
      omissionSummary omitted lines = []) := by
  set counts := [("ERROR", LogLevel.error), ("FAIL", .fail), ("WARN", .warn),
    ("INFO", .info)].filterMap fun entry =>
      let count := (withLevel entry.2 lines).length
      if 0 < count then some (decimal count ++ ' ' :: entry.1.toList) else none with hcounts
  have hlevels : counts ≠ [] ↔ ∃ line ∈ lines, line.level ∈ summaryLevels := by
    rw [Ne, hcounts, List.filterMap_eq_nil_iff, not_forall]
    constructor
    · rintro ⟨⟨label, level⟩, hentry⟩
      rw [Classical.not_imp] at hentry
      obtain ⟨hmem, hsome⟩ := hentry
      obtain ⟨line, hline, rfl⟩ := withLevel_ne_nil_iff.mp
        (not_not.mp fun hnone => hsome (if_neg hnone))
      exact ⟨line, hline, List.mem_map_of_mem (f := Prod.snd) hmem⟩
    · rintro ⟨line, hline, hlevel⟩
      obtain ⟨⟨label, level⟩, hmem, heq⟩ := List.mem_map.mp (show line.level ∈
        [("ERROR", LogLevel.error), ("FAIL", .fail), ("WARN", .warn), ("INFO", .info)].map
          Prod.snd from hlevel)
      refine ⟨(label, level), fun hentry => ?_⟩
      have hnone := hentry hmem
      dsimp only at hnone
      rw [if_pos (withLevel_ne_nil_iff.mpr ⟨line, hline, heq.symm⟩)] at hnone
      exact Option.some_ne_none _ hnone
  rw [← hlevels]
  exact ⟨fun hsaid => ⟨_, if_pos hsaid⟩, fun hsilent => if_neg hsilent⟩

section

variable {F : Type*} [Float64 F] (chars : LogChars) (tools : TextTools) (md5Hex24 : Text → Text)
variable (config : LogCompressorConfig F)

theorem compressed_compressWithStore (hasStore : Bool) {content : Text} (bias : F)
    (hlong : config.minLinesForCcr ≤ (content.splitOn '\n').length) :
    let lines := parseLines chars config (content.splitOn '\n')
    let selected := selectLines chars config tools lines bias
    ∃ pointer, (compressWithStore chars tools md5Hex24 config hasStore content bias).1.compressed =
        formatOutput selected lines ++ pointer ∧
      (pointer = [] ∨ ∃ key, pointer =
        '\n' :: retrievalMarker (content.splitOn '\n').length selected.length key) := by
  intro lines selected
  rw [compressWithStore]
  simp only [if_neg (not_lt.mpr hlong)]
  split_ifs
  · exact ⟨_, rfl, .inr ⟨_, rfl⟩⟩
  · exact ⟨[], (List.append_nil _).symm, .inl rfl⟩

/-- The output has lines of the log in their order and markers of runs, and a summary if lines
are omitted and one of the log has a level.  The lines that are missing are the omitted ones and
one more for every marker. -/
theorem compress_accounts (hasStore : Bool) (content : Text) (bias : F)
    (hlong : config.minLinesForCcr ≤ (content.splitOn '\n').length) :
    let lines := parseLines chars config (content.splitOn '\n')
    let selected := selectLines chars config tools lines bias
    let omitted := lines.length - selected.length
    lines.map (·.content) = content.splitOn '\n' ∧ Accounts lines selected ∧
      (∃ pointer, (compressWithStore chars tools md5Hex24 config hasStore content
          bias).1.compressed =
          ['\n'].intercalate (selected.map (·.content) ++ omissionSummary omitted lines) ++
            pointer ∧
        (pointer = [] ∨ ∃ key, pointer =
          '\n' :: retrievalMarker (content.splitOn '\n').length selected.length key)) ∧
      (0 < omitted ∧ (∃ line ∈ lines, line.level ∈ summaryLevels) → ∃ counts,
        omissionSummary omitted lines =
          ["[".toList ++ decimal omitted ++ " lines omitted: ".toList ++ counts ++ "]".toList]) ∧
      (¬(0 < omitted ∧ ∃ line ∈ lines, line.level ∈ summaryLevels) →
        omissionSummary omitted lines = []) := by
  intro lines selected omitted
  exact ⟨map_content_parseLines chars config _,
    (parsed_parseLines chars config _).accounts_selectLines chars config tools bias,
    compressed_compressWithStore chars tools md5Hex24 config hasStore bias hlong,
    omissionSummary_eq omitted lines⟩

end

/-! ## What is chosen -/

section

variable {F : Type*} [Float64 F] (chars : LogChars) (tools : TextTools)
variable (config : LogCompressorConfig F)

/-- The first and the last error are chosen, and so is every head of a chained trace among the
lines that are taken of it.  A chosen line is selected if few chosen lines are better. -/
theorem must_keep (hfirst : config.keepFirstError = true) (hlast : config.keepLastError = true)
    (content : Text) (bias : F) :
    let lines := parseLines chars config (content.splitOn '\n')
    let chosen := chosenLines chars config lines
    (∀ line, (withLevel .error lines).head? = some line ∨
      (withLevel .error lines).getLast? = some line → line ∈ chosen) ∧
    (∀ stack ∈ (stackTraces lines).take config.maxStackTraces, ∀ line ∈ stack,
      isChainHeadLine line.content = true →
        line ∈ (collapseOf config stack).kept ∧
        (line ∈ stackLines config stack → line ∈ chosen) ∧
        (stack.length ≤ config.stackTraceMaxLines → line ∈ chosen)) ∧
    ∀ line, line ∈ selectLines chars config tools lines bias ↔
      line ∈ chosen ∧ rankIn ScoreOrder chosen line < adaptiveMax config tools lines bias := by
  intro lines chosen
  have hlines : Parsed lines := parsed_parseLines chars config _
  refine ⟨fun line hline => ?_, fun stack hstack line hline hhead => ?_, fun line =>
    mem_capLines (nodup_chosenLines chars config) _ line⟩
  · apply mem_chosenLines_of_error chars config hlines
    apply ends_mem_selectWithFirstLast config hfirst hlast _ config.maxErrors hline
    exact fun left hleft right hright hnumber => hlines.eq_of_lineNumber
      (List.mem_of_mem_filter hright) (List.mem_of_mem_filter hleft) hnumber
  · have hmem := (isInfix_of_mem_stackTraces (List.mem_of_mem_take hstack)).subset hline
    have hchosen : line ∈ stackLines config stack → line ∈ chosen := by
      intro htaken
      apply mem_chosenLines_of_category chars config hlines hmem _
        (hlines.lineNumber_ne_of_isRunMarker hmem hhead)
      simp only [categoryLines, List.mem_append]
      exact .inl (.inr (List.mem_flatMap.mpr ⟨stack, hstack, htaken⟩))
    obtain ⟨parts, hparts⟩ := exists_parts stack config.traceHeadFrames config.traceAppFrames
    refine ⟨hparts.chainHead_mem hline hhead, hchosen, fun hshort => hchosen ?_⟩
    have hwhole : isCollapsed config stack = false :=
      Bool.and_eq_false_imp.mpr fun _ => decide_eq_false (not_lt.mpr hshort)
    rw [stackLines, hwhole, List.take_of_length_le]
    · exact hline
    · exact hshort

end

/-! ## Logs that lose lines -/

/-- The defaults for logs of all lengths. -/
def shortLogConfig : LogCompressorConfig ℚ :=
  { LogCompressorConfig.default with minLinesForCcr := 1 }

/-- No frame of a trace of more than three lines is kept. -/
def framelessConfig : LogCompressorConfig ℚ :=
  { shortLogConfig with
    stackTraceMaxLines := 3, traceHeadFrames := 0, traceAppFrames := 0, errorContextLines := 0 }

def frameLog : Text := "ERROR x\nat a.b(\nat a.c(\nat a.d(\nat a.e(".toList

/-- A log without levels is dropped in silence, and collapsed frames are counted twice. -/
theorem logs_miscounted :
    (let lines := parseLines asciiChars shortLogConfig ("a\nb".toList.splitOn '\n');
      (lines.filter (· ∉ selectLines asciiChars shortLogConfig letterCaseTools lines 1)).length =
          2 ∧
        (compressWithStore asciiChars letterCaseTools id shortLogConfig false "a\nb".toList
          1).1.compressed = []) ∧
    (let lines := parseLines asciiChars framelessConfig (frameLog.splitOn '\n');
      (lines.filter (· ∉ selectLines asciiChars framelessConfig letterCaseTools lines 1)).length =
          4 ∧
        (compressWithStore asciiChars letterCaseTools id framelessConfig false frameLog
          1).1.compressed =
          "ERROR x\n      [... 4 frames collapsed]\n[3 lines omitted: 1 ERROR]".toList) := by
  exact ⟨⟨by decide +kernel, by decide +kernel⟩, by decide +kernel, by decide +kernel⟩

theorem compress_accounts_frameLog :
    let lines := parseLines asciiChars framelessConfig (frameLog.splitOn '\n');
    Accounts lines (selectLines asciiChars framelessConfig letterCaseTools lines 1) :=
  (compress_accounts asciiChars letterCaseTools id framelessConfig false frameLog 1
    (by decide +kernel)).2.1

/-- The defaults with a single line in the output. -/
def singleLineConfig : LogCompressorConfig ℚ :=
  { LogCompressorConfig.default with maxTotalLines := 1 }

def errorLog : Text := ['\n'].intercalate (List.replicate 11 "fail".toList ++ ["error".toList])

/-- One line of a trace is taken. -/
def singleFrameConfig : LogCompressorConfig ℚ :=
  { LogCompressorConfig.default with
    stackTraceMaxLines := 1, collapseRuntimeFrames := false, errorContextLines := 0 }

def chainLog : Text := "at a.b(\nCaused by: x".toList

theorem exists_error_errorLog :
    ∃ line, (withLevel .error (parseLines asciiChars singleLineConfig
      (errorLog.splitOn '\n'))).head? = some line :=
  Option.isSome_iff_exists.mp (by decide +kernel)

/-- The last and only error is cut for failures that come before it, and the head of a chained
trace for a frame. -/
theorem forcedLines_cut :
    (let lines := parseLines asciiChars singleLineConfig (errorLog.splitOn '\n');
      ∃ line, (withLevel .error lines).head? = some line ∧
        line ∉ selectLines asciiChars singleLineConfig letterCaseTools lines 1) ∧
    (let lines := parseLines asciiChars singleFrameConfig (chainLog.splitOn '\n');
      ∃ stack ∈ (stackTraces lines).take singleFrameConfig.maxStackTraces, ∃ line ∈ stack,
        isChainHeadLine line.content = true ∧
          line ∉ selectLines asciiChars singleFrameConfig letterCaseTools lines 1) := by
  refine ⟨?_, by decide +kernel⟩
  set lines := parseLines asciiChars singleLineConfig (errorLog.splitOn '\n') with hlines
  have hlong : ¬(lines.map fun line => encode line.content).length ≤ 8 := by decide +kernel
  have hmax : adaptiveMax singleLineConfig letterCaseTools lines 1 ≤ 10 :=
    computeOptimalK_le letterCaseTools hlong 1 10 1
  have hbehind : ∀ line ∈ (withLevel .error lines).head?,
      10 ≤ rankIn ScoreOrder (chosenLines asciiChars singleLineConfig lines) line := by
    decide +kernel
  obtain ⟨line, hline⟩ := exists_error_errorLog
  refine ⟨line, hline, fun hselected => ?_⟩
  have hahead := ((mem_capLines (nodup_chosenLines asciiChars singleLineConfig) _ line).mp
    hselected).2
  exact absurd (hahead.trans_le hmax) (not_lt.mpr (hbehind line hline))

theorem must_keep_errorLog :
    let lines := parseLines asciiChars singleLineConfig (errorLog.splitOn '\n');
    ∃ line, (withLevel .error lines).head? = some line ∧
      line ∈ chosenLines asciiChars singleLineConfig lines := by
  obtain ⟨line, hline⟩ := exists_error_errorLog
  exact ⟨line, hline, (must_keep asciiChars letterCaseTools singleLineConfig rfl rfl errorLog
    1).1 line (.inl hline)⟩

end Log

end Legroom.Transforms
