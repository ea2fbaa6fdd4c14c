import Legroom.Lib.Thinning
import Legroom.Transforms.DiffCompressor

/-!
# Kept hunks and kept context

A capped selection has the first and the last hunk, and loses nothing but the hunks that it
hands back as dropped.  A trimmed hunk has every change with the lines around it.
-/

namespace Legroom.Transforms

namespace Diff

open LogTemplate (Text)

variable {F : Type*}

/-! ## Hunks under a cap -/

/-- A choice of at most `cap` hunks. -/
structure Selection (unicode : Unicode) (cap : ℕ) (hunks selected dropped : List (DiffHunk F)) :
    Prop where
  length_le : selected.length ≤ cap
  perm : (selected ++ dropped).Perm hunks
  whole : hunks.length ≤ cap → selected = hunks
  /-- The first and the last hunk are forced, and the others come from between them. -/
  ends : ∀ first middle last, hunks = first :: (middle ++ [last]) →
    ∃ kept, selected.Perm (first :: (kept ++ [last])) ∧ (kept ++ dropped).Perm middle
  ordered : (hunks.Pairwise fun left right =>
      extractLineNumber unicode left.header < extractLineNumber unicode right.header) →
    selected.Sublist hunks

variable {cap : ℕ}
variable {unicode : Unicode} {hunks selected dropped : List (DiffHunk F)}

theorem Selection.sum_eq (hselection : Selection unicode cap hunks selected dropped)
    (count : DiffHunk F → ℕ) :
    (selected.map count).sum + (dropped.map count).sum = (hunks.map count).sum := by
  rw [← List.sum_append, ← List.map_append]
  exact (hselection.perm.map count).sum_nat

theorem selectHunks_of_length_le [Float64 F] (unicode : Unicode) (hlength : hunks.length ≤ cap) :
    selectHunks unicode cap hunks = (hunks, []) :=
  if_pos hlength

variable {first last : DiffHunk F} {middle : List (DiffHunk F)}

/-- Over the cap, the middle is ranked by its scores. -/
theorem selectHunks_of_lt [Float64 F] (unicode : Unicode) (hlength : cap < middle.length + 2) :
    selectHunks unicode cap (first :: (middle ++ [last])) =
      ((first :: ((middle.insertionSort ScoreOrder).take (cap - 2) ++ [last])).insertionSort
        (HeaderOrder unicode), (middle.insertionSort ScoreOrder).drop (cap - 2)) := by
  have hcap : ¬(first :: (middle ++ [last])).length ≤ cap := by
    rw [List.length_cons, List.length_append, List.length_singleton]
    exact not_le.mpr hlength
  rw [selectHunks, if_neg hcap]
  simp only [List.getLast?_append, List.getLast?_singleton, List.dropLast_concat, Option.some_or,
    Option.isSome_some, if_true, Option.toList_some]

theorem pairwise_headerOrder (unicode : Unicode) (hunks : List (DiffHunk F)) :
    (hunks.insertionSort (HeaderOrder unicode)).Pairwise (HeaderOrder unicode) := by
  have : Std.Total (HeaderOrder unicode (F := F)) := ⟨fun _ _ => Nat.le_total _ _⟩
  have : IsTrans (DiffHunk F) (HeaderOrder unicode) := ⟨fun _ _ _ => Nat.le_trans⟩
  exact List.pairwise_insertionSort _ hunks

theorem selection_of_perm {kept : List (DiffHunk F)} (hcap : 2 ≤ cap)
    (hlength : cap < middle.length + 2) (hkept : kept.length ≤ cap - 2)
    (hmiddle : (kept ++ dropped).Perm middle)
    (hselected : selected.Perm (first :: (kept ++ [last])))
    (hsorted : selected.Pairwise (HeaderOrder unicode)) :
    Selection unicode cap (first :: (middle ++ [last])) selected dropped := by
  have hperm : (selected ++ dropped).Perm (first :: (middle ++ [last])) := by
    calc (selected ++ dropped).Perm (first :: (kept ++ [last]) ++ dropped) :=
          hselected.append_right dropped
      _ = first :: (kept ++ ([last] ++ dropped)) := by rw [List.cons_append, List.append_assoc]
      _ |>.Perm (first :: (kept ++ (dropped ++ [last]))) :=
          (List.perm_append_comm.append_left kept).cons first
      _ = first :: ((kept ++ dropped) ++ [last]) := by rw [List.append_assoc]
      _ |>.Perm (first :: (middle ++ [last])) := (hmiddle.append_right [last]).cons first
  refine ⟨?_, hperm, fun hle => ?_, fun first' middle' last' heq => ?_, fun hstarts => ?_⟩
  · rw [hselected.length_eq, List.length_cons, List.length_append, List.length_singleton]
    omega
  · rw [List.length_cons, List.length_append, List.length_singleton] at hle
    exact absurd hle (not_le.mpr hlength)
  · obtain ⟨rfl, htail⟩ := List.cons_eq_cons.mp heq
    obtain ⟨rfl, hlast⟩ := List.append_inj' htail rfl
    obtain rfl := List.singleton_inj.mp hlast
    exact ⟨kept, hselected, hmiddle⟩
  · have hpart : selected.Subperm (first :: (middle ++ [last])) :=
      (List.sublist_append_left selected dropped).subperm.trans hperm.subperm
    exact sublist_of_pairwise hpart hsorted hstarts

theorem selection_selectHunks [Float64 F] (unicode : Unicode) (hcap : 2 ≤ cap)
    (hunks : List (DiffHunk F)) :
    Selection unicode cap hunks (selectHunks unicode cap hunks).1
      (selectHunks unicode cap hunks).2 := by
  by_cases hlength : hunks.length ≤ cap
  · rw [selectHunks_of_length_le unicode hlength]
    refine ⟨hlength, by rw [List.append_nil], fun _ => rfl, fun first middle last heq => ?_,
      fun _ => List.Sublist.refl hunks⟩
    exact ⟨middle, by rw [heq], by rw [List.append_nil]⟩
  · obtain ⟨first, middle, last, rfl⟩ :
        ∃ first middle last, hunks = first :: (middle ++ [last]) := by
      match hunks with
      | [] => exact absurd (Nat.zero_le cap) hlength
      | [_] => exact absurd (Nat.le_of_succ_le hcap) hlength
      | first :: second :: rest =>
          exact ⟨first, (second :: rest).dropLast, (second :: rest).getLast (List.cons_ne_nil _ _),
            by rw [List.dropLast_append_getLast]⟩
    have hover : cap < middle.length + 2 := by
      rw [List.length_cons, List.length_append, List.length_singleton] at hlength
      exact not_le.mp hlength
    rw [selectHunks_of_lt unicode hover]
    apply selection_of_perm hcap hover (List.length_take_le _ _)
      (by rw [List.take_append_drop]; exact List.perm_insertionSort ScoreOrder middle)
      (List.perm_insertionSort _ _) (pairwise_headerOrder unicode _)

/-! ## Context of the changes -/

/-- The kept lines of a hunk that has changes. -/
def around (maxContext : ℕ) (lines : List Text) : List Text :=
  thin (nearMarked maxContext isChange (startsWith · "\\") lines) lines

variable {maxContext : ℕ}

/-- As long as its end is a `usize`, a window is as wide behind a change as before it. -/
theorem inWindow_iff {length position index : ℕ} (hposition : position < length)
    (hindex : index < length) (hbound : maxContext + length < 2 ^ 64) :
    inWindow maxContext length position index = true ↔
      index ≤ position + maxContext ∧ position ≤ index + maxContext := by
  rw [inWindow, Nat.mod_eq_of_lt (by omega), Bool.or_eq_true, Bool.or_eq_true, Bool.and_eq_true,
    Bool.and_eq_true, decide_eq_true_eq, decide_eq_true_eq, decide_eq_true_eq, decide_eq_true_eq,
    decide_eq_true_eq, lt_min_iff]
  omega

variable {lines : List Text}

theorem keptIndices_eq (hbound : maxContext + lines.length < 2 ^ 64) :
    keptIndices maxContext lines = (List.range lines.length).filter
      (nearMarked maxContext isChange (startsWith · "\\") lines) := by
  apply List.filter_congr
  intro index hindex
  have hindex : index < lines.length := List.mem_range.mp hindex
  rw [nearMarked, List.any_filter, Bool.eq_iff_iff, Bool.or_eq_true, Bool.or_eq_true,
    List.any_eq_true, List.any_eq_true]
  apply or_congr_left
  apply exists_congr
  intro position
  apply and_congr_right
  intro hposition
  rw [Bool.and_eq_true, Bool.and_eq_true, Bool.and_eq_true, decide_eq_true_eq, decide_eq_true_eq,
    and_assoc, inWindow_iff (List.mem_range.mp hposition) hindex hbound]

/-- What a trimmed hunk is. -/
structure Reduction (maxContext : ℕ) (hunk reduced : DiffHunk F) : Prop where
  header : reduced.header = hunk.header
  changed : hunk.lines.any isChange = true → reduced.lines = around maxContext hunk.lines
  unchanged : (∀ line ∈ hunk.lines, isChange line = false ∧ startsWith line "\\" = false) →
    reduced.lines = hunk.lines.take maxContext
  additions : reduced.additions = hunk.lines.countP (startsWith · "+")
  deletions : reduced.deletions =
    hunk.lines.countP fun line => !startsWith line "+" && startsWith line "-"

theorem isChange_of_plus {line : Text} (hplus : startsWith line "+" = true) :
    isChange line = true := by
  rw [isChange, hplus, Bool.true_or]

theorem isChange_of_minus {line : Text}
    (hminus : (!startsWith line "+" && startsWith line "-") = true) : isChange line = true := by
  rw [isChange, (Bool.and_eq_true_iff.mp hminus).2, Bool.or_true]

variable {chosen : Text → Bool}

/-- Lines that are changes are left as they are, whatever the width of the window. -/
theorem filter_keptLines (maxContext : ℕ) (lines : List Text)
    (hchosen : ∀ line, chosen line = true → isChange line = true) :
    (keptLines maxContext lines).filter chosen =
      lines.filter chosen := by
  apply filter_thin
  intro index line hline hline'
  have hindex : index < lines.length := (List.getElem?_eq_some_iff.mp hline).1
  rw [Bool.or_eq_true, List.any_eq_true]
  left
  refine ⟨index, List.mem_filter.mpr ⟨List.mem_range.mpr hindex, ?_⟩, ?_⟩
  · rw [hline, Option.any_some]
    exact hchosen line hline'
  · rw [inWindow, decide_eq_true rfl, Bool.true_or, Bool.true_or]

theorem countP_keptLines (maxContext : ℕ) (lines : List Text)
    (hchosen : ∀ line, chosen line = true → isChange line = true) :
    (keptLines maxContext lines).countP chosen =
      lines.countP chosen := by
  rw [List.countP_eq_length_filter, filter_keptLines maxContext lines hchosen,
    List.countP_eq_length_filter]

theorem countP_of_not_change (hlines : ¬lines.any isChange = true)
    (hchosen : ∀ line, chosen line = true → isChange line = true) : lines.countP chosen = 0 := by
  rw [List.countP_eq_zero]
  intro line hline hline'
  exact hlines (List.any_eq_true.mpr ⟨line, hline, hchosen line hline'⟩)

variable {hunk : DiffHunk F}

theorem reduction_reduceContext (hbound : maxContext + hunk.lines.length < 2 ^ 64) :
    Reduction maxContext hunk (reduceContext maxContext hunk) := by
  by_cases hchange : hunk.lines.any isChange = true
  · rw [reduceContext, if_pos hchange]
    refine ⟨rfl, fun _ => ?_, fun hlines => ?_, ?_, ?_⟩
    · rw [DiffHunk.withLines, keptLines, around, thin, keptIndices_eq hbound]
    · obtain ⟨line, hline, hline'⟩ := List.any_eq_true.mp hchange
      rw [(hlines line hline).1] at hline'
      exact Bool.noConfusion hline'
    · exact countP_keptLines maxContext hunk.lines fun _ => isChange_of_plus
    · exact countP_keptLines maxContext hunk.lines fun _ => isChange_of_minus
  · rw [reduceContext, if_neg hchange]
    refine ⟨rfl, fun hchange' => absurd hchange' hchange, fun _ => rfl, ?_, ?_⟩
    · exact (countP_of_not_change hchange fun _ => isChange_of_plus).symm
    · exact (countP_of_not_change hchange fun _ => isChange_of_minus).symm

/-- A trimmed hunk has no lines left to trim. -/
theorem reduceContext_reduceContext (hbound : maxContext + hunk.lines.length < 2 ^ 64) :
    reduceContext maxContext (reduceContext maxContext hunk) = reduceContext maxContext hunk := by
  by_cases hchange : hunk.lines.any isChange = true
  · have hkept : keptLines maxContext hunk.lines = around maxContext hunk.lines := by
      rw [keptLines, around, thin, keptIndices_eq hbound]
    have hshort : (keptLines maxContext hunk.lines).length ≤ hunk.lines.length := by
      rw [hkept]
      exact (thin_sublist _ _).length_le
    have hagain : keptLines maxContext (keptLines maxContext hunk.lines) =
        keptLines maxContext hunk.lines := by
      calc keptLines maxContext (keptLines maxContext hunk.lines) =
            around maxContext (keptLines maxContext hunk.lines) := by
            rw [keptLines, around, thin, keptIndices_eq
              (Nat.lt_of_le_of_lt (Nat.add_le_add_left hshort maxContext) hbound)]
        _ = keptLines maxContext hunk.lines := by
            rw [hkept]
            exact thin_nearMarked maxContext isChange (startsWith · "\\") hunk.lines
    have hchange' : (keptLines maxContext hunk.lines).any isChange = true := by
      obtain ⟨line, hline, hline'⟩ := List.any_eq_true.mp hchange
      have hfilter : line ∈ hunk.lines.filter isChange := List.mem_filter.mpr ⟨hline, hline'⟩
      rw [← filter_keptLines maxContext hunk.lines fun _ hline => hline] at hfilter
      exact List.any_eq_true.mpr ⟨line, List.mem_of_mem_filter hfilter, hline'⟩
    have honce : reduceContext maxContext hunk =
        hunk.withLines (keptLines maxContext hunk.lines) := if_pos hchange
    have htwice : reduceContext maxContext (hunk.withLines (keptLines maxContext hunk.lines)) =
        (hunk.withLines (keptLines maxContext hunk.lines)).withLines
          (keptLines maxContext (keptLines maxContext hunk.lines)) := if_pos hchange'
    rw [honce, htwice, hagain]
    rfl
  · have hchange' : ¬(hunk.lines.take maxContext).any isChange = true := by
      rw [List.any_eq_true]
      rintro ⟨line, hline, hline'⟩
      exact hchange (List.any_eq_true.mpr ⟨line, List.mem_of_mem_take hline, hline'⟩)
    rw [show reduceContext maxContext hunk = _ from if_neg hchange, reduceContext,
      if_neg hchange', List.take_take, Nat.min_self, List.length_take, ← Nat.min_assoc,
      Nat.min_self]

/-! ## Both steps -/

/-- Every hunk is kept or dropped, every change of a kept one stays with its context, and a
second pass finds nothing to do. -/
theorem select_and_reduce [Float64 F] (unicode : Unicode) {cap : ℕ} (hcap : 2 ≤ cap)
    (hunks : List (DiffHunk F)) {maxContext : ℕ} {hunk : DiffHunk F}
    (hbound : maxContext + hunk.lines.length < 2 ^ 64) :
    (Selection unicode cap hunks (selectHunks unicode cap hunks).1
        (selectHunks unicode cap hunks).2 ∧
      (∀ count : DiffHunk F → ℕ, ((selectHunks unicode cap hunks).1.map count).sum +
        ((selectHunks unicode cap hunks).2.map count).sum = (hunks.map count).sum) ∧
      selectHunks unicode cap (selectHunks unicode cap hunks).1 =
        ((selectHunks unicode cap hunks).1, [])) ∧
    Reduction maxContext hunk (reduceContext maxContext hunk) ∧
      reduceContext maxContext (reduceContext maxContext hunk) =
        reduceContext maxContext hunk := by
  have hselection := selection_selectHunks unicode hcap hunks
  exact ⟨⟨hselection, hselection.sum_eq, selectHunks_of_length_le unicode hselection.length_le⟩,
    reduction_reduceContext hbound, reduceContext_reduceContext hbound⟩

/-- The tables of ASCII. -/
def Unicode.ascii : Unicode :=
  ⟨Char.isDigit, fun char => char.isAlphanum || char = '_', Char.toLower, List.map Char.toLower,
    fun _ _ => Iff.rfl⟩

/-- A hunk with a line of context and no change. -/
def contextHunk : DiffHunk ℚ := ⟨"@@ -1 +1 @@".toList, [" same".toList], 0, 0, 1, 0⟩

theorem select_and_reduce_contextHunk :
    (Selection Unicode.ascii 2 [contextHunk, contextHunk, contextHunk]
        (selectHunks Unicode.ascii 2 [contextHunk, contextHunk, contextHunk]).1
        (selectHunks Unicode.ascii 2 [contextHunk, contextHunk, contextHunk]).2 ∧
      (∀ count : DiffHunk ℚ → ℕ,
        ((selectHunks Unicode.ascii 2 [contextHunk, contextHunk, contextHunk]).1.map count).sum +
        ((selectHunks Unicode.ascii 2 [contextHunk, contextHunk, contextHunk]).2.map count).sum =
          ([contextHunk, contextHunk, contextHunk].map count).sum) ∧
      selectHunks Unicode.ascii 2
          (selectHunks Unicode.ascii 2 [contextHunk, contextHunk, contextHunk]).1 =
        ((selectHunks Unicode.ascii 2 [contextHunk, contextHunk, contextHunk]).1, [])) ∧
    Reduction 1 contextHunk (reduceContext 1 contextHunk) ∧
      reduceContext 1 (reduceContext 1 contextHunk) = reduceContext 1 contextHunk :=
  select_and_reduce Unicode.ascii (by decide) _ (by decide)

/-- Without a change, the first lines of a hunk are kept all the same. -/
theorem not_around_contextHunk :
    ¬∀ (maxContext : ℕ) (hunk : DiffHunk ℚ), maxContext + hunk.lines.length < 2 ^ 64 →
      (reduceContext maxContext hunk).lines = around maxContext hunk.lines := by
  intro haround
  exact absurd (haround 1 contextHunk (by decide)) (by decide)

end Diff

end Legroom.Transforms
