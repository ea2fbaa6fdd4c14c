import Legroom.Lib.Greedy
import Legroom.SmartCrusher.Crushers
import Mathlib.Data.Finset.Sort

/-!
# What the crushers keep

The kept items are those that are forced and some more, in their order.  The forced ones are
those at both ends and those that stand out; the others fill the budget.
-/

namespace Legroom.SmartCrusher

open Json Utf8

/-! ## Kept positions -/

theorem length_keptAt_le {α : Type*} (items : List α) {keep : List ℕ} :
    (keptAt items keep).length ≤ keep.length := by
  rw [keptAt_eq_map_filter, List.length_map]
  have hnodup : ((items.zipIdx.filter fun entry => entry.2 ∈ keep).map Prod.snd).Nodup := by
    have hsublist := (List.filter_sublist (p := fun entry => decide (entry.2 ∈ keep))
      (l := items.zipIdx)).map Prod.snd
    rw [List.zipIdx_map_snd] at hsublist
    exact hsublist.nodup List.nodup_range'
  have hsubset : ((items.zipIdx.filter fun entry => entry.2 ∈ keep).map Prod.snd) ⊆ keep := by
    intro index hindex
    obtain ⟨entry, hentry, rfl⟩ := List.mem_map.mp hindex
    exact of_decide_eq_true (List.mem_filter.mp hentry).2
  have hlength := (hnodup.subperm hsubset).length_le
  rwa [List.length_map] at hlength

/-- What is kept has every forced item, and not more of them than the bound. -/
structure CrushLaw {α : Type*} (items : List α) (forced keep : List ℕ) (bound : ℕ) : Prop where
  sublist : (keptAt items keep).Sublist items
  forced : ∀ index ∈ forced, index ∈ keep
  length_le : (keptAt items keep).length ≤ bound

/-- Positions that are added while a cap allows for it. -/
theorem foldl_insert (cap : List ℕ → ℕ) {bound : ℕ}
    (hcap : ∀ keep : List ℕ, keep.Nodup → cap keep ≤ bound) (indices : List ℕ) {keep : List ℕ}
    (hnodup : keep.Nodup) :
    let result := indices.foldl (fun keep index =>
      if cap keep ≤ keep.length then keep else keep.insert index) keep
    result.Nodup ∧ keep ⊆ result ∧ result.length ≤ max bound keep.length := by
  induction indices generalizing keep with
  | nil => exact ⟨hnodup, List.Subset.refl keep, le_max_right bound keep.length⟩
  | cons index indices ih =>
      by_cases hfull : cap keep ≤ keep.length
      · simp only [List.foldl_cons, if_pos hfull]
        exact ih hnodup
      · have hlength : (keep.insert index).length ≤ max bound keep.length := by
          have hbound := hcap keep hnodup
          rw [List.length_insert]
          split_ifs
          · exact le_max_right bound keep.length
          · exact le_max_of_le_left ((Nat.succ_le_of_lt (not_le.mp hfull)).trans hbound)
        obtain ⟨hnodup', hsubset, hle⟩ := ih (hnodup.insert (a := index))
        simp only [List.foldl_cons, if_neg hfull]
        exact ⟨hnodup', fun other hother => hsubset (List.mem_insert_of_mem hother),
          hle.trans (max_le (le_max_left bound keep.length) hlength)⟩

theorem length_boundary_le (n first last : ℕ) : (boundary n first last).length ≤ first + last := by
  have hnodup : (boundary n first last).Nodup := List.nodup_range.filter _
  have hsubset : boundary n first last ⊆ List.range first ++ List.range' (n - last) last := by
    intro index hindex
    obtain ⟨hrange, hends⟩ := List.mem_filter.mp hindex
    rw [List.mem_range] at hrange
    rw [List.mem_append, List.mem_range, List.mem_range'_1]
    have hends : index < first ∨ n - last ≤ index := of_decide_eq_true hends
    omega
  have hlength := (hnodup.subperm hsubset).length_le
  rwa [List.length_append, List.length_range, List.length_range'] at hlength

theorem length_dedup_append_le (left right : List ℕ) :
    (left ++ right).dedup.length ≤ left.dedup.length + right.length := by
  have hsubset : (left ++ right).dedup ⊆ left.dedup ++ right := by
    intro index hindex
    rw [List.mem_append, List.mem_dedup]
    exact List.mem_append.mp (List.mem_dedup.mp hindex)
  have hlength := ((List.nodup_dedup (left ++ right)).subperm hsubset).length_le
  rwa [List.length_append] at hlength

theorem length_le_dedup_append {left : List ℕ} (hleft : left.Nodup) (right : List ℕ) :
    left.length ≤ (left ++ right).dedup.length :=
  (hleft.subperm fun _ hindex =>
    List.mem_dedup.mpr (List.mem_append_left right hindex)).length_le

section

variable {F : Type*} [Float64 F] (tools : TextTools) (config : SmartCrusherConfig F)

theorem first_add_last_le (items : List Utf8String) (bias : F) :
    (computeKSplit tools config items bias).first + (computeKSplit tools config items bias).last ≤
      (computeKSplit tools config items bias).total := by
  simp only [computeKSplit]
  omega

theorem nodup_outliers (values : List (Option F)) (center deviation : F) :
    (outliers config values center deviation).Nodup := by
  rw [outliers]
  split_ifs
  · exact List.nodup_range.filter _
  · exact List.nodup_nil

/-! ## Strings -/

def stringErrors (items : List Utf8String) : List ℕ :=
  (List.range items.length).filter fun index => (items[index]?).any (containsErrorKeyword tools)

def lengthAnomalies (items : List Utf8String) : List ℕ :=
  let lengths : List F := items.map fun item => Float64.ofNat (chars item.bytes).length
  outliers config (lengths.map some) ((Float64.mean lengths).getD (Float64.ofNat 0))
    ((Float64.sampleStdev lengths).getD (Float64.ofNat 0))

def stringForced (items : List Utf8String) (bias : F) : List ℕ :=
  let split := computeKSplit tools config items bias
  stringErrors tools items ++ lengthAnomalies config items ++
    boundary items.length split.first split.last

/-- The texts that were seen are those at the kept positions. -/
def SeenTexts (items : List Utf8String) (state : List ℕ × List Utf8String) : Prop :=
  state.1.Nodup ∧ ∀ item, item ∈ state.2 ↔ ∃ index ∈ state.1, items[index]? = some item

theorem fillDistinct_spec {items : List Utf8String} {cap : ℕ} {state : List ℕ × List Utf8String}
    {index : ℕ} (hseen : SeenTexts items state) (hindex : index < items.length) :
    SeenTexts items (fillDistinct items cap state index) ∧
      (fillDistinct items cap state index).1.toFinset =
        Greedy.add (fun index => items[index]?) cap state.1.toFinset index := by
  obtain ⟨hnodup, htexts⟩ := hseen
  have hitem : items[index]? = some items[index] := List.getElem?_eq_getElem hindex
  have hfull : (cap ≤ state.1.length ∨ index ∈ state.1 ∨ items[index] ∈ state.2) ↔
      cap ≤ state.1.toFinset.card ∨ ∃ other ∈ state.1.toFinset, items[other]? = items[index]? := by
    rw [List.toFinset_card_of_nodup hnodup, htexts, hitem]
    simp only [List.mem_toFinset]
    exact or_congr_right ⟨fun hold => hold.elim (fun hmem => ⟨index, hmem, hitem⟩) id, .inr⟩
  rw [fillDistinct, hitem, Greedy.add]
  simp only
  by_cases hold : cap ≤ state.1.length ∨ index ∈ state.1 ∨ items[index] ∈ state.2
  · rw [if_pos hold, if_pos (hfull.mp hold)]
    exact ⟨⟨hnodup, htexts⟩, rfl⟩
  rw [if_neg hold, if_neg fun hother => hold (hfull.mpr hother)]
  refine ⟨⟨List.nodup_cons.mpr ⟨fun hmem => hold (.inr (.inl hmem)), hnodup⟩, fun item => ?_⟩,
    List.toFinset_cons⟩
  rw [List.mem_cons, htexts, List.exists_mem_cons_iff, hitem, Option.some.injEq, eq_comm]

theorem stringLaw (items : List Utf8String) (bias : F) :
    CrushLaw items (stringForced tools config items bias)
        (stringKeepIndices tools config items bias)
        ((computeKSplit tools config items bias).total + (stringErrors tools items).length +
          (lengthAnomalies config items).length) ∧
      ∀ index ∈ stringKeepIndices tools config items bias,
        ∀ other ∈ stringKeepIndices tools config items bias, items[other]? = items[index]? →
          other ≠ index → index ∈ stringForced tools config items bias ∧
            other ∈ stringForced tools config items bias := by
  set split := computeKSplit tools config items bias with hsplit
  set forced := stringForced tools config items bias with hforced
  set cap := split.total + (stringErrors tools items).length +
    (lengthAnomalies config items).length with hcap
  have hlength : forced.dedup.length ≤ cap := by
    have hends := length_boundary_le items.length split.first split.last
    have hclamped : split.first + split.last ≤ split.total :=
      first_add_last_le tools config items bias
    calc forced.dedup.length ≤ forced.length := (List.dedup_sublist forced).length_le
      _ = (stringErrors tools items).length + (lengthAnomalies config items).length +
            (boundary items.length split.first split.last).length := by
          rw [hforced, stringForced, List.length_append, List.length_append]
      _ ≤ cap := by omega
  set places := strided items.length (strideFor items.length (split.total - forced.dedup.length))
    with hplaces
  have hkeep : stringKeepIndices tools config items bias =
      if 0 < split.total - forced.dedup.length then
        (places.foldl (fillDistinct items cap)
          (forced.dedup, forced.dedup.filterMap (items[·]?))).1
      else forced.dedup := rfl
  by_cases hbudget : 0 < split.total - forced.dedup.length
  · rw [hkeep, if_pos hbudget]
    have hseen : SeenTexts items (forced.dedup, forced.dedup.filterMap (items[·]?)) :=
      ⟨List.nodup_dedup forced, fun item => List.mem_filterMap⟩
    obtain ⟨⟨hnodup, -⟩, hview⟩ := Greedy.foldl_eq_fill
      (fun state : List ℕ × List Utf8String => state.1.toFinset) places
      (fun state hstate index hindex => fillDistinct_spec hstate
        (List.mem_range.mp (List.mem_of_mem_filter hindex))) hseen
    have hfills := Greedy.fills_fill (fun index => items[index]?) cap forced.dedup.toFinset places
    rw [← hview] at hfills
    have hold : ∀ index, index ∈ forced → index ∈ forced.dedup.toFinset := fun index hindex =>
      List.mem_toFinset.mpr (List.mem_dedup.mpr hindex)
    refine ⟨⟨keptAt_sublist _ _, fun index hindex =>
      List.mem_toFinset.mp (hfills.subset (hold index hindex)), ?_⟩, ?_⟩
    · have hcard := hfills.card_le
      rw [List.toFinset_card_of_nodup hnodup, List.toFinset_card_of_nodup (List.nodup_dedup forced),
        max_eq_left hlength] at hcard
      exact (length_keptAt_le items).trans hcard
    · have hfresh : ∀ index ∈ _, ∀ other ∈ _, items[other]? = items[index]? → other ≠ index →
          index ∈ forced := fun index hindex other hother htext hne => by
        by_contra hnot
        exact hne (hfills.fresh index (List.mem_toFinset.mpr hindex) (fun hmem =>
          hnot (List.mem_dedup.mp (List.mem_toFinset.mp hmem))) other
          (List.mem_toFinset.mpr hother) htext)
      exact fun index hindex other hother htext hne => ⟨hfresh index hindex other hother htext hne,
        hfresh other hother index hindex htext.symm hne.symm⟩
  · rw [hkeep, if_neg hbudget]
    exact ⟨⟨keptAt_sublist _ _, fun index => List.mem_dedup.mpr,
      (length_keptAt_le items).trans hlength⟩, fun index hindex other hother _ _ =>
        ⟨List.mem_dedup.mp hindex, List.mem_dedup.mp hother⟩⟩

/-! ## Numbers -/

def finiteNumbers (items : List Value) : List F := items.filterMap finiteNumber

def numberOutliers (items : List Value) : List ℕ :=
  let finite : List F := finiteNumbers items
  outliers config (items.map finiteNumber) (meanOf finite)
    ((Float64.sampleStdev finite).getD (Float64.ofNat 0))

def numberChangePoints (items : List Value) : List ℕ :=
  let finite : List F := finiteNumbers items
  changePoints config items ((Float64.sampleStdev finite).getD (Float64.ofNat 0))

def numberForced (items : List Value) (bias : F) : List ℕ :=
  let split := computeKSplit tools config (items.map Value.toJson) bias
  numberOutliers config items ++ numberChangePoints config items ++
    boundary items.length split.first split.last

theorem numberLaw (items : List Value) (bias : F) :
    CrushLaw items (numberForced tools config items bias)
      (numberKeepIndices tools config items bias)
      ((computeKSplit tools config (items.map Value.toJson) bias).total +
        (numberOutliers config items ++ numberChangePoints config items).dedup.length) := by
  set split := computeKSplit tools config (items.map Value.toJson) bias with hsplit
  set standing := numberOutliers config items ++ numberChangePoints config items with hstanding
  set forced := numberForced tools config items bias with hforced
  have hlength : forced.dedup.length ≤ split.total + standing.dedup.length := by
    have hends := length_boundary_le items.length split.first split.last
    have hclamped : split.first + split.last ≤ split.total :=
      first_add_last_le tools config (items.map Value.toJson) bias
    have happend := length_dedup_append_le standing (boundary items.length split.first split.last)
    rw [hforced, numberForced, ← hsplit, ← hstanding]
    omega
  have hcap : split.total + (numberOutliers config items).length ≤
      split.total + standing.dedup.length :=
    Nat.add_le_add_left (length_le_dedup_append (nodup_outliers config _ _ _) _) split.total
  have hkeep : numberKeepIndices tools config items bias =
      if 0 < split.total - forced.dedup.length then
        (strided items.length (strideFor items.length (split.total - forced.dedup.length))).foldl
          (fun keep index =>
            if split.total + (numberOutliers config items).length ≤ keep.length then keep
            else keep.insert index) forced.dedup
      else forced.dedup := rfl
  rw [hkeep]
  split_ifs
  · obtain ⟨-, hsubset, hresult⟩ := foldl_insert
      (fun _ => split.total + (numberOutliers config items).length) (fun _ _ => hcap)
      (strided items.length (strideFor items.length (split.total - forced.dedup.length)))
      (List.nodup_dedup forced)
    exact ⟨keptAt_sublist _ _, fun index hindex => hsubset (List.mem_dedup.mpr hindex),
      (length_keptAt_le items).trans (hresult.trans (max_le le_rfl hlength))⟩
  · exact ⟨keptAt_sublist _ _, fun index => List.mem_dedup.mpr,
      (length_keptAt_le items).trans hlength⟩

/-! ## Objects -/

def errorFields (fields : List (Utf8String × Value)) : List ℕ :=
  (List.range fields.length).filter fun index => (fields[index]?).any (isErrorField tools)

def smallFields (fields : List (Utf8String × Value)) : List ℕ :=
  (List.range fields.length).filter fun index =>
    (fields[index]?).any fun field => fieldTokens field ≤ 12

def objectForced (fields : List (Utf8String × Value)) (total : ℕ) : List ℕ :=
  errorFields tools fields ++ smallFields fields ++
    boundary fields.length (share total config.firstFraction) (share total config.lastFraction)

/-- The size that the curve of an object asks for. -/
def objectTotal (fields : List (Utf8String × Value)) (bias : F) : ℕ :=
  computeOptimalK tools (fields.map fieldText) bias 3 (maxK config)

theorem objectLaw (fields : List (Utf8String × Value)) (total : ℕ) :
    CrushLaw fields (objectForced tools config fields total)
      (objectKeepIndices tools config fields total)
      (total + (objectForced tools config fields total).dedup.length) := by
  set forced := objectForced tools config fields total with hforced
  have herrors : (errorFields tools fields).length ≤ forced.dedup.length := by
    rw [hforced, objectForced, List.append_assoc]
    exact length_le_dedup_append (List.nodup_range.filter _) _
  have hcap : ∀ keep : List ℕ, keep.Nodup →
      total + keep.countP (fun index => (fields[index]?).any (isErrorField tools)) ≤
        total + forced.dedup.length := by
    intro keep hnodup
    have hsubset : keep.filter (fun index => (fields[index]?).any (isErrorField tools)) ⊆
        errorFields tools fields := by
      intro index hindex
      have herror := (List.mem_filter.mp hindex).2
      obtain ⟨field, hfield, -⟩ := (Option.any_eq_true _ _).mp herror
      exact List.mem_filter.mpr
        ⟨List.mem_range.mpr (List.getElem?_eq_some_iff.mp hfield).1, herror⟩
    rw [List.countP_eq_length_filter]
    exact Nat.add_le_add_left
      (((hnodup.filter _).subperm hsubset).length_le.trans herrors) total
  have hkeep : objectKeepIndices tools config fields total =
      if 0 < total - forced.dedup.length then
        (strided fields.length (strideFor fields.length (total - forced.dedup.length))).foldl
          (fun keep index =>
            if total + keep.countP (fun index => (fields[index]?).any (isErrorField tools)) ≤
                keep.length then keep
            else keep.insert index) forced.dedup
      else forced.dedup := rfl
  rw [hkeep]
  split_ifs
  · obtain ⟨-, hsubset, hresult⟩ := foldl_insert _ hcap
      (strided fields.length (strideFor fields.length (total - forced.dedup.length)))
      (List.nodup_dedup forced)
    exact ⟨keptAt_sublist _ _, fun index hindex => hsubset (List.mem_dedup.mpr hindex),
      (length_keptAt_le fields).trans
        (hresult.trans (max_le le_rfl (Nat.le_add_left _ total)))⟩
  · exact ⟨keptAt_sublist _ _, fun index => List.mem_dedup.mpr,
      (length_keptAt_le fields).trans (Nat.le_add_left _ total)⟩

/-! ## All three -/

/-- Arrays and objects that are not passed through keep what is forced, and not many more. -/
theorem crushers_law (strings : List Utf8String) (numbers : List Value)
    (fields : List (Utf8String × Value)) (bias : F) :
    (if strings.length ≤ 8 then crushStringArray tools config strings bias = strings
      else ∃ keep, crushStringArray tools config strings bias = keptAt strings keep ∧
        CrushLaw strings (stringForced tools config strings bias) keep
          ((computeKSplit tools config strings bias).total + (stringErrors tools strings).length +
            (lengthAnomalies config strings).length) ∧
        ∀ index ∈ keep, ∀ other ∈ keep, strings[other]? = strings[index]? → other ≠ index →
          index ∈ stringForced tools config strings bias ∧
            other ∈ stringForced tools config strings bias) ∧
    (if numbers.length ≤ 8 ∨ (finiteNumbers numbers : List F).isEmpty then
        crushNumberArray tools config numbers bias = numbers
      else ∃ keep, crushNumberArray tools config numbers bias = keptAt numbers keep ∧
        CrushLaw numbers (numberForced tools config numbers bias) keep
          ((computeKSplit tools config (numbers.map Value.toJson) bias).total +
            (numberOutliers config numbers ++ numberChangePoints config numbers).dedup.length)) ∧
    (if fields.length ≤ 8 ∨ (fields.map fieldTokens).sum < config.minTokensToCrush ∨
          fields.length ≤ objectTotal tools config fields bias then
        crushObject tools config fields bias = none
      else ∃ keep, crushObject tools config fields bias = some (keptAt fields keep) ∧
        CrushLaw fields
          (objectForced tools config fields (objectTotal tools config fields bias)) keep
          (objectTotal tools config fields bias + (objectForced tools config fields
            (objectTotal tools config fields bias)).dedup.length)) := by
  refine ⟨?_, ?_, ?_⟩
  · split_ifs with hshort
    · exact if_pos hshort
    · exact ⟨_, if_neg hshort, stringLaw tools config strings bias⟩
  · split_ifs with hpass
    · exact if_pos hpass
    · exact ⟨_, if_neg hpass, numberLaw tools config numbers bias⟩
  · split_ifs with hpass
    · rw [crushObject]
      rcases hpass with hshort | hcheap | hsmall
      · exact if_pos (.inl hshort)
      · exact if_pos (.inr hcheap)
      · split_ifs
        · rfl
        · exact if_pos hsmall
    · obtain ⟨hshort, hcheap, hsmall⟩ := not_or.mp hpass |>.imp_right not_or.mp
      refine ⟨_, ?_, objectLaw tools config fields (objectTotal tools config fields bias)⟩
      rw [crushObject, if_neg (not_or.mpr ⟨hshort, hcheap⟩)]
      exact if_neg hsmall

end

/-! ## Objects that are passed through -/

/-- The defaults with a single item after the crush. -/
def singleItemConfig : SmartCrusherConfig ℚ :=
  { SmartCrusherConfig.default with maxItemsAfterCrush := 1 }

/-- Ten fields that are neither small nor errors, and cheap together. -/
def cheapFields : List (Utf8String × Value) :=
  ["a", "b", "c", "d", "e", "f", "g", "h", "i", "j"].map fun name =>
    (constant name, .string (constant "xxxxxxxxxxxxxxxxxxxxxxxxxxxxxxxxxxxxxxxxxxxxxxxx"))

theorem objectTotal_le_three {fields : List (Utf8String × Value)} (hlong : ¬fields.length ≤ 8)
    (bias : ℚ) : objectTotal letterCaseTools singleItemConfig fields bias ≤ 3 := by
  have hlong : ¬(fields.map fieldText).length ≤ 8 := by rwa [List.length_map]
  have hmax : maxK singleItemConfig = some 1 := rfl
  rw [objectTotal, hmax]
  exact computeOptimalK_le letterCaseTools hlong bias 3 1

/-- All fields of a cheap object stay, however small the budget is. -/
theorem cheapFields_over :
    ¬∀ (config : SmartCrusherConfig ℚ) (fields : List (Utf8String × Value)) (bias : ℚ),
      ((crushObject letterCaseTools config fields bias).getD fields).length ≤
        objectTotal letterCaseTools config fields bias + (objectForced letterCaseTools config fields
          (objectTotal letterCaseTools config fields bias)).dedup.length := by
  intro hbound
  have hover := hbound singleItemConfig cheapFields 1
  have hcheap : crushObject letterCaseTools singleItemConfig cheapFields 1 = none :=
    if_pos (.inr (by decide +kernel))
  have hsmall : ∀ total ≤ 3, ¬cheapFields.length ≤
      total + (objectForced letterCaseTools singleItemConfig cheapFields total).dedup.length := by
    decide +kernel
  have hlong : ¬cheapFields.length ≤ 8 := by decide
  rw [hcheap, Option.getD_none] at hover
  exact hsmall _ (objectTotal_le_three hlong 1) hover

end Legroom.SmartCrusher
