import Legroom.Lib.Greedy
import Legroom.SmartCrusher.Crusher

/-!
# Rows that stand out

A row is to be preserved if it has an error keyword, a rare field, a rare value of a field
that most rows have, or a number far from the mean of its field.
-/

namespace Legroom.SmartCrusher

open Json Utf8

section

variable {F : Type*} [Float64 F] (tools : TextTools)

/-! ## Errors -/

/-- The text of a row is the one that was computed before, if there is one. -/
def detectErrorItemsForPreservation (items : List Value)
    (itemStrings : Option (List Utf8String)) : List ℕ :=
  (List.range items.length).filter fun index =>
    (items[index]?).any fun item =>
      isObject item &&
        containsErrorKeyword tools ((itemStrings.bind (·[index]?)).getD item.toJson)

/-! ## Rare fields and rare values -/

def fieldCount (items : List Value) (name : Utf8String) : ℕ :=
  items.countP fun item => name ∈ fieldNames item

def isCommonField (F : Type*) [Float64 F] (items : List Value) (name : Utf8String) : Bool :=
  Float64.le (Float64.mul (Float64.ofNat items.length) (0.8 : F))
    (Float64.ofNat (fieldCount items name))

def isRareField (F : Type*) [Float64 F] (items : List Value) (name : Utf8String) : Bool :=
  Float64.lt (Float64.ofNat (fieldCount items name))
    (Float64.mul (Float64.ofNat items.length) (0.2 : F))

def stringify : Value → Utf8String
  | .null => constant "__none__"
  | .string text => text
  | value => value.toJson

/-- The more frequent value comes first, and of two as frequent ones the smaller one. -/
def CountOrder (left right : Utf8String × ℕ) : Prop :=
  right.2 < left.2 ∨ right.2 = left.2 ∧ left.1.bytes ≤ right.1.bytes

instance (left right : Utf8String × ℕ) : Decidable (CountOrder left right) :=
  inferInstanceAs (Decidable (_ ∨ _ ∧ _))

/-- The values in front until they cover the threshold. -/
def topValues (threshold : ℕ) : ℕ → List (Utf8String × ℕ) → List Utf8String
  | _, [] => []
  | cumulative, (value, count) :: counts =>
      value :: if threshold ≤ cumulative + count then []
        else topValues threshold (cumulative + count) counts

/-- The rows whose value of a field is not one of the few most frequent ones. -/
def rareStatusOf (F : Type*) [Float64 F] (items : List Value) (name : Utf8String) : List ℕ :=
  let values := items.filterMap (·.get name)
  let uniqueValues := ((values.filter (!·.isNull)).map stringify).dedup
  if uniqueValues.length < 2 ∨ 50 < uniqueValues.length then []
  else
    let keys := values.map stringify
    let counts := keys.dedup.map fun key => (key, keys.count key)
    let threshold := Float64.toUsize (Float64.ceil
      (Float64.mul (Float64.ofNat values.length) (0.8 : F)))
    let top := topValues threshold 0 (counts.insertionSort CountOrder)
    if 5 < top.length then []
    else
      (List.range items.length).filter fun index =>
        ((items[index]?).bind (·.get name)).any fun value => stringify value ∉ top

def detectStructuralOutliers (F : Type*) [Float64 F] (items : List Value) : List ℕ :=
  if items.length < 5 then []
  else
    let names := (items.flatMap fieldNames).dedup
    let rare := (List.range items.length).filter fun index =>
      (items[index]?).any fun item => (fieldNames item).any (isRareField F items)
    rare ++ (names.filter (isCommonField F items)).flatMap (rareStatusOf F items)

/-! ## Numbers -/

inductive FieldType where
  | numeric
  | string
  | boolean
  | object
  | array
  | null
deriving DecidableEq

structure FieldStats (F : Type*) where
  fieldType : FieldType
  meanVal : Option F
  variance : Option F

abbrev ArrayAnalysis (F : Type*) := List (Utf8String × FieldStats F)

/-- The rows whose number is far from the mean of their field. -/
def numericAnomaliesOf (varianceThreshold : F) (items : List Value) (name : Utf8String)
    (stats : FieldStats F) : List ℕ :=
  match stats.fieldType, stats.meanVal, stats.variance with
  | .numeric, some mean, some variance =>
      let deviation := Float64.sqrt variance
      if !Float64.lt (Float64.ofNat 0) variance || Float64.le deviation (Float64.ofNat 0) then []
      else
        (List.range items.length).filter fun index =>
          (((items[index]?).bind (·.get name)).bind finiteNumber).any fun number =>
            Float64.lt (Float64.mul varianceThreshold deviation)
              (Float64.abs (Float64.sub number mean))
  | _, _, _ => []

def numericAnomalyIndices (varianceThreshold : F) (items : List Value)
    (analysis : Option (ArrayAnalysis F)) : List ℕ :=
  (analysis.getD []).flatMap fun (name, stats) =>
    numericAnomaliesOf varianceThreshold items name stats

/-! ## Constraints -/

/-- A row that must be kept, whatever the budget. -/
structure Constraint where
  name : String
  mustKeep : List Value → Option (List Utf8String) → List ℕ

def keepErrorsConstraint : Constraint :=
  ⟨"keep_errors", detectErrorItemsForPreservation tools⟩

def keepStructuralOutliersConstraint (F : Type*) [Float64 F] : Constraint :=
  ⟨"keep_structural_outliers", fun items _ => detectStructuralOutliers F items⟩

def defaultOssConstraints (F : Type*) [Float64 F] : List Constraint :=
  [keepErrorsConstraint tools, keepStructuralOutliersConstraint F]

/-- The rows that some constraint demands. -/
def demanded (constraints : List Constraint) (items : List Value)
    (itemStrings : Option (List Utf8String)) : Finset ℕ :=
  (constraints.flatMap fun constraint => constraint.mustKeep items itemStrings).toFinset

def applyConstraints (constraints : List Constraint) (items : List Value)
    (itemStrings : Option (List Utf8String)) (keep : Finset ℕ) : Finset ℕ :=
  keep ∪ demanded constraints items itemStrings

/-- Errors, structural outliers and numeric anomalies, whatever the constraints are. -/
def criticalIndices (varianceThreshold : F) (items : List Value)
    (analysis : Option (ArrayAnalysis F)) : Finset ℕ :=
  (detectErrorItemsForPreservation tools items none ++ detectStructuralOutliers F items ++
    numericAnomalyIndices varianceThreshold items analysis).toFinset

end

/-!
## What the orchestration keeps

Filling a set of positions adds new contents only, and leaves none out while there is room.
Over the budget the critical rows come first: they all stay, and nothing else goes beyond.
-/

section

variable {F : Type*} [Float64 F] (tools : TextTools)

/-- The content of the item at a position, as its hash tells it. -/
def contentAt (items : List Value) (index : ℕ) : Option Bytes :=
  (items[index]?).map (itemContentHash tools)
variable {items : List Value} {index : ℕ}

theorem isSome_contentAt : (contentAt tools items index).isSome = true ↔ index < items.length := by
  simp [contentAt]

/-- The contents of a set of positions. -/
def contents (items : List Value) (keep : Finset ℕ) : Finset (Option Bytes) :=
  (keep.filter (· < items.length)).image (contentAt tools items)

/-! ## Filling -/

structure Filled (items : List Value) (keep : Finset ℕ) (budget : ℕ) (result : Finset ℕ) :
    Prop where
  subset : keep ⊆ result
  card_le : result.card ≤ max budget keep.card
  lt_length : ∀ index ∈ result, index ∉ keep → index < items.length
  distinct : ∀ index ∈ result, index ∉ keep → ∀ other ∈ result,
    contentAt tools items other = contentAt tools items index → other = index
  complete : result.card < budget → ∀ index < items.length,
    ∃ other ∈ result, contentAt tools items other = contentAt tools items index

theorem mem_interleaved {step : ℕ} (hstep : 0 < step) {candidates : List ℕ} :
    index ∈ interleaved step candidates ↔ index ∈ candidates := by
  rw [interleaved, List.mem_flatMap]
  constructor
  · rintro ⟨offset, -, hmem⟩
    obtain ⟨⟨found, place⟩, hentry, rfl⟩ := List.mem_map.mp hmem
    exact List.mem_of_getElem? (List.mk_mem_zipIdx_iff_getElem?.mp (List.mem_of_mem_filter hentry))
  · intro hindex
    obtain ⟨place, hplace⟩ := List.mem_iff_getElem?.mp hindex
    refine ⟨place % step, List.mem_range.mpr (Nat.mod_lt place hstep), ?_⟩
    refine List.mem_map.mpr ⟨(index, place), List.mem_filter.mpr ⟨?_, decide_eq_true rfl⟩, rfl⟩
    exact List.mk_mem_zipIdx_iff_getElem?.mpr hplace

/-- The hashes that were seen are those of the kept items. -/
def Seen (items : List Value) (state : Finset ℕ × List (Option Bytes)) : Prop :=
  ∀ content, content ∈ state.2 ↔
    ∃ other ∈ state.1, other < items.length ∧ contentAt tools items other = content

variable {state : Finset ℕ × List (Option Bytes)}

theorem mem_seen_iff (hseen : Seen tools items state) (hindex : index < items.length) :
    contentAt tools items index ∈ state.2 ↔
      ∃ other ∈ state.1, contentAt tools items other = contentAt tools items index := by
  rw [hseen]
  constructor
  · rintro ⟨other, hother, -, hcontent⟩
    exact ⟨other, hother, hcontent⟩
  · rintro ⟨other, hother, hcontent⟩
    refine ⟨other, hother, ?_, hcontent⟩
    rwa [← isSome_contentAt tools, hcontent, isSome_contentAt]

def fillStep (items : List Value) (cap : ℕ) (state : Finset ℕ × List (Option Bytes))
    (index : ℕ) : Finset ℕ × List (Option Bytes) :=
  if cap ≤ state.1.card then state
  else if contentAt tools items index ∈ state.2 then state
  else (insert index state.1, contentAt tools items index :: state.2)

theorem fillStep_spec {cap : ℕ} (hseen : Seen tools items state) (hindex : index < items.length) :
    Seen tools items (fillStep tools items cap state index) ∧
      (fillStep tools items cap state index).1 =
        Greedy.add (contentAt tools items) cap state.1 index := by
  have hkeys := mem_seen_iff tools hseen hindex
  rw [fillStep, Greedy.add]
  by_cases hroom : cap ≤ state.1.card
  · rw [if_pos hroom, if_pos (.inl hroom)]
    exact ⟨hseen, rfl⟩
  rw [if_neg hroom]
  by_cases hfound : contentAt tools items index ∈ state.2
  · rw [if_pos hfound, if_pos (.inr (hkeys.mp hfound))]
    exact ⟨hseen, rfl⟩
  rw [if_neg hfound, if_neg (not_or.mpr ⟨hroom, fun hother => hfound (hkeys.mpr hother)⟩)]
  refine ⟨fun content => ?_, rfl⟩
  rw [List.mem_cons, hseen]
  constructor
  · rintro (rfl | ⟨other, hother, hrest⟩)
    · exact ⟨index, Finset.mem_insert_self index state.1, hindex, rfl⟩
    · exact ⟨other, Finset.mem_insert_of_mem hother, hrest⟩
  · rintro ⟨other, hother, hrest⟩
    rcases Finset.mem_insert.mp hother with rfl | hother
    · exact .inl hrest.2.symm
    · exact .inr ⟨other, hother, hrest⟩

variable (keep : Finset ℕ)

/-- Filling is a greedy choice by contents. -/
theorem fillRemainingSlots_eq (items : List Value) (budget : ℕ) :
    ∃ candidates : List ℕ,
      (∀ index, index ∈ candidates ↔ index < items.length ∧ index ∉ keep) ∧
      fillRemainingSlots tools keep items budget =
        Greedy.fill (contentAt tools items) (max budget keep.card) keep candidates := by
  set pool := (List.range items.length).filter (· ∉ keep) with hpool
  set step := max (pool.length / (budget - keep.card + 1)) 1 with hstep
  have hmem : ∀ index, index ∈ interleaved step pool ↔ index < items.length ∧ index ∉ keep := by
    intro index
    rw [mem_interleaved (lt_max_of_lt_right Nat.one_pos), hpool, List.mem_filter, List.mem_range,
      decide_eq_true_eq]
  have hseen : Seen tools items
      (keep, (keep.sort.filter (· < items.length)).map (contentAt tools items)) := by
    intro content
    rw [List.mem_map]
    simp only [List.mem_filter, Finset.mem_sort, decide_eq_true_eq, and_assoc]
  have hcap : keep.card + (budget - keep.card) = max budget keep.card := by omega
  refine ⟨interleaved step pool, hmem, ?_⟩
  rw [← hcap]
  exact (Greedy.foldl_eq_fill Prod.fst (interleaved step pool) (fun state hstate index hindex =>
    fillStep_spec tools hstate ((hmem index).mp hindex).1) hseen).2

theorem filled_fillRemainingSlots (items : List Value) (budget : ℕ) :
    Filled tools items keep budget (fillRemainingSlots tools keep items budget) := by
  obtain ⟨candidates, hmem, heq⟩ := fillRemainingSlots_eq tools keep items budget
  have hfills := Greedy.fills_fill (contentAt tools items) (max budget keep.card) keep candidates
  rw [heq]
  refine ⟨hfills.subset, hfills.card_le.trans (max_le le_rfl (le_max_right _ _)),
    fun index hindex hnot => ?_, hfills.fresh, fun hroom index hindex => ?_⟩
  · exact ((hmem index).mp ((hfills.mem index hindex).resolve_left hnot)).1
  · by_cases hkeep : index ∈ keep
    · exact ⟨index, hfills.subset hkeep, rfl⟩
    · exact hfills.complete (lt_max_of_lt_left hroom) index ((hmem index).mpr ⟨hindex, hkeep⟩)

/-! ## Deduplicated positions -/

theorem foldl_filter_of_skip {σ ι : Type*} {step : σ → ι → σ} {runs : ι → Bool}
    (hskip : ∀ state index, runs index = false → step state index = state) (values : List ι)
    (state : σ) : (values.filter runs).foldl step state = values.foldl step state := by
  rw [List.foldl_filter]
  apply List.foldl_ext
  intro state index _
  split_ifs with hruns
  · rfl
  · exact (hskip state index (Bool.eq_false_of_not_eq_true hruns)).symm

def dedupStep (items : List Value) (seen : List (Bytes × ℕ)) (index : ℕ) : List (Bytes × ℕ) :=
  match items[index]? with
  | some item =>
      let hash := itemContentHash tools item
      if seen.any (·.1 = hash) then seen else seen ++ [(hash, index)]
  | none => seen

/-- What was seen are positions with their contents. -/
def Recorded (items : List Value) (keep : Finset ℕ) (seen : List (Bytes × ℕ)) : Prop :=
  ∀ entry ∈ seen, entry.2 ∈ keep ∧ contentAt tools items entry.2 = some entry.1

theorem dedupStep_spec {keep : Finset ℕ} {seen : List (Bytes × ℕ)}
    (hseen : Recorded tools items keep seen) (hkeep : index ∈ keep) (hindex : index <
      items.length) :
    Recorded tools items keep (dedupStep tools items seen index) ∧
      ((dedupStep tools items seen index).map Prod.snd).toFinset =
        Greedy.add (contentAt tools items) (keep.card + 1) (seen.map Prod.snd).toFinset index := by
  have hcontent : contentAt tools items index = some (itemContentHash tools items[index]) := by
    rw [contentAt, List.getElem?_eq_getElem hindex, Option.map_some]
  have hsubset : (seen.map Prod.snd).toFinset ⊆ keep := by
    intro other hother
    obtain ⟨entry, hentry, rfl⟩ := List.mem_map.mp (List.mem_toFinset.mp hother)
    exact (hseen entry hentry).1
  have hroom : ¬keep.card + 1 ≤ ((seen.map Prod.snd).toFinset).card :=
    not_le.mpr (Nat.lt_succ_of_le (Finset.card_le_card hsubset))
  have hkeys : (seen.any (·.1 = itemContentHash tools items[index])) = true ↔
      ∃ other ∈ (seen.map Prod.snd).toFinset,
        contentAt tools items other = contentAt tools items index := by
    rw [List.any_eq_true, hcontent]
    constructor
    · rintro ⟨entry, hentry, hhash⟩
      refine ⟨entry.2, List.mem_toFinset.mpr (List.mem_map_of_mem hentry), ?_⟩
      rw [(hseen entry hentry).2, of_decide_eq_true hhash]
    · rintro ⟨other, hother, hhash⟩
      obtain ⟨entry, hentry, rfl⟩ := List.mem_map.mp (List.mem_toFinset.mp hother)
      rw [(hseen entry hentry).2] at hhash
      exact ⟨entry, hentry, decide_eq_true (Option.some.inj hhash)⟩
  rw [dedupStep, List.getElem?_eq_getElem hindex, Greedy.add]
  simp only
  by_cases hfound : seen.any (·.1 = itemContentHash tools items[index]) = true
  · rw [if_pos hfound, if_pos (.inr (hkeys.mp hfound))]
    exact ⟨hseen, rfl⟩
  rw [if_neg hfound, if_neg (not_or.mpr ⟨hroom, fun hother => hfound (hkeys.mpr hother)⟩)]
  refine ⟨fun entry hentry => ?_, ?_⟩
  · rcases List.mem_append.mp hentry with hold | hnew
    · exact hseen entry hold
    · rw [List.mem_singleton.mp hnew]
      exact ⟨hkeep, hcontent⟩
  · ext other
    rw [List.map_append, List.toFinset_append, Finset.mem_union, Finset.mem_insert, or_comm]
    simp

/-- Deduplication is a greedy choice by contents among all positions. -/
theorem deduplicateIndicesByContent_eq (items : List Value) :
    deduplicateIndicesByContent tools keep items =
      Greedy.fill (contentAt tools items) (keep.card + 1) ∅
        (keep.sort.filter (· < items.length)) := by
  have hskip : ∀ (seen : List (Bytes × ℕ)) (index : ℕ),
      decide (index < items.length) = false → dedupStep tools items seen index = seen := by
    intro seen index hindex
    rw [dedupStep, List.getElem?_eq_none (not_lt.mp (of_decide_eq_false hindex))]
  have hempty : Recorded tools items keep [] := fun entry hentry => absurd hentry List.not_mem_nil
  have hfold := (Greedy.foldl_eq_fill (fun seen : List (Bytes × ℕ) =>
      (seen.map Prod.snd).toFinset) (keep.sort.filter (· < items.length))
      (fun seen hseen index hindex =>
        dedupStep_spec tools hseen ((Finset.mem_sort (· ≤ ·)).mp (List.mem_of_mem_filter hindex))
          (of_decide_eq_true (List.mem_filter.mp hindex).2)) hempty).2
  rw [foldl_filter_of_skip hskip] at hfold
  exact hfold

/-- One position for every content. -/
structure Deduplicated (items : List Value) (keep result : Finset ℕ) : Prop where
  subset : result ⊆ keep
  lt_length : ∀ index ∈ result, index < items.length
  distinct : ∀ index ∈ result, ∀ other ∈ result,
    contentAt tools items other = contentAt tools items index → other = index
  complete : ∀ index ∈ keep, index < items.length →
    ∃ other ∈ result, contentAt tools items other = contentAt tools items index

theorem deduplicated_deduplicateIndicesByContent (items : List Value) :
    Deduplicated tools items keep (deduplicateIndicesByContent tools keep items) := by
  rw [deduplicateIndicesByContent_eq]
  set candidates := keep.sort.filter (· < items.length) with hcandidates
  have hmem : ∀ index, index ∈ candidates ↔ index ∈ keep ∧ index < items.length := by
    intro index
    rw [hcandidates, List.mem_filter, Finset.mem_sort, decide_eq_true_eq]
  have hfills := Greedy.fills_fill (contentAt tools items) (keep.card + 1) ∅ candidates
  have hsource : ∀ index ∈ Greedy.fill (contentAt tools items) (keep.card + 1) ∅ candidates,
      index ∈ keep ∧ index < items.length := fun index hindex =>
    (hmem index).mp ((hfills.mem index hindex).resolve_left (Finset.notMem_empty index))
  refine ⟨fun index hindex => (hsource index hindex).1,
    fun index hindex => (hsource index hindex).2,
    fun index hindex => hfills.fresh index hindex (Finset.notMem_empty index),
    fun index hkeep hindex => ?_⟩
  refine hfills.complete (Nat.lt_succ_of_le (Finset.card_le_card fun index hindex => ?_)) index
    ((hmem index).mpr ⟨hkeep, hindex⟩)
  exact (hsource index hindex).1

/-- There are as many positions as contents. -/
theorem Deduplicated.card_eq {keep result : Finset ℕ}
    (hdedup : Deduplicated tools items keep result) :
    result.card = (contents tools items keep).card := by
  have himage : result.image (contentAt tools items) = contents tools items keep := by
    ext content
    rw [contents, Finset.mem_image, Finset.mem_image]
    constructor
    · rintro ⟨index, hindex, rfl⟩
      refine ⟨index, Finset.mem_filter.mpr ⟨hdedup.subset hindex, ?_⟩, rfl⟩
      exact hdedup.lt_length index hindex
    · rintro ⟨index, hindex, rfl⟩
      exact hdedup.complete index (Finset.mem_filter.mp hindex).1 (Finset.mem_filter.mp hindex).2
  rw [← himage, Finset.card_image_of_injOn]
  exact fun index hindex other hother hcontent =>
    (hdedup.distinct index hindex other hother hcontent.symm).symm

/-! ## Priorities -/

/-- The positions that are kept for their place: the first three and the last two. -/
def anchors (items : List Value) : List ℕ :=
  (List.range items.length).take 3 ++ (List.range items.length).drop (items.length - 2)

/-- What is kept of some positions when critical ones go first. -/
structure Prioritized (items : List Value) (keep critical : Finset ℕ) (budget : ℕ)
    (result : Finset ℕ) : Prop where
  /-- Only critical positions go beyond the budget. -/
  beyond : budget < result.card → result = critical
  critical_subset : budget < (contents tools items keep).card → critical ⊆ result
  /-- Of two positions with one content, one is critical or kept for its place. -/
  repeated : ∀ index ∈ result, ∀ other ∈ result,
    contentAt tools items other = contentAt tools items index → other ≠ index →
    index ∈ critical ∨ index ∈ anchors items ∨ other ∈ critical ∨ other ∈ anchors items
  distinct : (contents tools items keep).card ≤ budget → ∀ index ∈ result, ∀ other ∈ result,
    contentAt tools items other = contentAt tools items index → other = index
  complete : (contents tools items keep).card ≤ budget → ∀ index ∈ keep, index < items.length →
    ∃ other ∈ result, contentAt tools items other = contentAt tools items index

theorem addWhileRoom_eq (budget : ℕ) : addWhileRoom budget = Greedy.add id budget := by
  funext kept index
  rw [addWhileRoom, Greedy.add]
  by_cases hroom : kept.card < budget
  · rw [if_pos hroom]
    by_cases hkept : index ∈ kept
    · rw [if_pos (.inr ⟨index, hkept, rfl⟩), Finset.insert_eq_of_mem hkept]
    · have hnew : ¬(budget ≤ kept.card ∨ ∃ other ∈ kept, id other = id index) := by
        rintro (hfull | ⟨other, hother, rfl⟩)
        · exact absurd hroom (not_lt.mpr hfull)
        · exact hkept hother
      rw [if_neg hnew]
  · rw [if_neg hroom, if_pos (.inl (not_lt.mp hroom))]

/-- The positions before they are ranked: one for every content, and more if there is room. -/
def unranked (keep : Finset ℕ) (items : List Value) (budget : ℕ) : Finset ℕ :=
  let unique := deduplicateIndicesByContent tools keep items
  if unique.card < budget ∧ unique.card < items.length then
    fillRemainingSlots tools unique items budget
  else unique

theorem prioritizeIndices_eq (keep critical : Finset ℕ) (items : List Value) (budget : ℕ) :
    prioritizeIndices tools true keep critical items budget =
      if (unranked tools keep items budget).card ≤ budget then unranked tools keep items budget
      else Greedy.fill id budget critical
        (anchors items ++ (unranked tools keep items budget).sort) := by
  rw [Greedy.fill, ← addWhileRoom_eq]
  rfl

theorem subset_unranked (items : List Value) (budget : ℕ) :
    deduplicateIndicesByContent tools keep items ⊆ unranked tools keep items budget := by
  rw [unranked]
  split_ifs
  · exact (filled_fillRemainingSlots tools _ items budget).subset
  · exact Finset.Subset.refl _

theorem distinct_unranked (items : List Value) (budget : ℕ) :
    ∀ index ∈ unranked tools keep items budget, ∀ other ∈ unranked tools keep items budget,
      contentAt tools items other = contentAt tools items index → other = index := by
  have hdedup := deduplicated_deduplicateIndicesByContent tools keep items
  rw [unranked]
  split_ifs
  · have hfilled := filled_fillRemainingSlots tools (deduplicateIndicesByContent tools keep items)
      items budget
    intro index hindex other hother hcontent
    by_cases hold : index ∈ deduplicateIndicesByContent tools keep items
    · by_cases hold' : other ∈ deduplicateIndicesByContent tools keep items
      · exact hdedup.distinct index hold other hold' hcontent
      · exact (hfilled.distinct other hother hold' index hindex hcontent.symm).symm
    · exact hfilled.distinct index hindex hold other hother hcontent
  · exact hdedup.distinct

/-- The positions fit the budget if and only if the contents do. -/
theorem card_unranked_le_iff (items : List Value) (budget : ℕ) :
    (unranked tools keep items budget).card ≤ budget ↔
      (contents tools items keep).card ≤ budget := by
  have hcard := (deduplicated_deduplicateIndicesByContent tools keep items).card_eq
  rw [← hcard]
  refine ⟨fun hle => (Finset.card_le_card (subset_unranked tools keep items budget)).trans hle,
    fun hle => ?_⟩
  rw [unranked]
  split_ifs
  · exact (filled_fillRemainingSlots tools _ items budget).card_le.trans (max_le le_rfl hle)
  · exact hle

theorem prioritized_prioritizeIndices (keep critical : Finset ℕ) (items : List Value)
    (budget : ℕ) :
    Prioritized tools items keep critical budget
      (prioritizeIndices tools true keep critical items budget) := by
  have hfits := card_unranked_le_iff tools keep items budget
  have hdistinct := distinct_unranked tools keep items budget
  rw [prioritizeIndices_eq]
  by_cases hbudget : (unranked tools keep items budget).card ≤ budget
  · rw [if_pos hbudget]
    refine ⟨fun hover => absurd hbudget (not_le.mpr hover),
      fun hover => absurd (hfits.mp hbudget) (not_le.mpr hover),
      fun index hindex other hother hcontent hne =>
        absurd (hdistinct index hindex other hother hcontent) hne,
      fun _ => hdistinct, fun _ index hkeep hindex => ?_⟩
    obtain ⟨other, hother, hcontent⟩ :=
      (deduplicated_deduplicateIndicesByContent tools keep items).complete index hkeep hindex
    exact ⟨other, subset_unranked tools keep items budget hother, hcontent⟩
  · rw [if_neg hbudget]
    have hfills := Greedy.fills_fill id budget critical
      (anchors items ++ (unranked tools keep items budget).sort)
    have hmem : ∀ index ∈ Greedy.fill id budget critical
        (anchors items ++ (unranked tools keep items budget).sort), index ∈ critical ∨
          index ∈ anchors items ∨ index ∈ unranked tools keep items budget := by
      intro index hindex
      refine (hfills.mem index hindex).imp_right fun hcandidate => ?_
      exact (List.mem_append.mp hcandidate).imp_right (Finset.mem_sort _).mp
    refine ⟨fun hover => ?_, fun _ => hfills.subset,
      fun index hindex other hother hcontent hne => ?_,
      fun hle => absurd (hfits.mpr hle) hbudget, fun hle => absurd (hfits.mpr hle) hbudget⟩
    · refine (Finset.eq_of_subset_of_card_le hfills.subset ?_).symm
      have hcard := hfills.card_le
      omega
    · rcases hmem index hindex with hcritical | hanchor | hindex
      · exact .inl hcritical
      · exact .inr (.inl hanchor)
      rcases hmem other hother with hcritical | hanchor | hother
      · exact .inr (.inr (.inl hcritical))
      · exact .inr (.inr (.inr hanchor))
      exact absurd (hdistinct index hindex other hother hcontent) hne

/-! ## Constraints -/

/-- The texts that the crusher has computed are those of the items. -/
theorem detectErrorItems_itemStrings (items : List Value) :
    detectErrorItemsForPreservation tools items (some (items.map Value.toJson)) =
      detectErrorItemsForPreservation tools items none := by
  apply List.filter_congr
  intro index _
  cases hitem : items[index]? with
  | none => rfl
  | some item =>
      rw [Option.any_some, Option.any_some, Option.bind_some, Option.bind_none,
        List.getElem?_map, hitem]
      rfl

theorem lt_length_of_mem_rareStatusOf {name : Utf8String}
    (hindex : index ∈ rareStatusOf F items name) : index < items.length := by
  rw [rareStatusOf] at hindex
  simp only at hindex
  split_ifs at hindex
  · exact absurd hindex List.not_mem_nil
  · exact absurd hindex List.not_mem_nil
  · exact List.mem_range.mp (List.mem_of_mem_filter hindex)

theorem lt_length_of_mem_outliers (hindex : index ∈ detectStructuralOutliers F items) :
    index < items.length := by
  rw [detectStructuralOutliers] at hindex
  split_ifs at hindex
  · exact absurd hindex List.not_mem_nil
  · rcases List.mem_append.mp hindex with hrare | hstatus
    · exact List.mem_range.mp (List.mem_of_mem_filter hrare)
    · obtain ⟨name, -, hname⟩ := List.mem_flatMap.mp hstatus
      exact lt_length_of_mem_rareStatusOf hname

/-- What a default constraint demands is critical. -/
theorem mem_critical_of_default {constraint : Constraint}
    (hdefault : constraint ∈ defaultOssConstraints tools F) (varianceThreshold : F)
    (items : List Value) (analysis : Option (ArrayAnalysis F)) (cached : Bool) :
    ∀ index ∈ constraint.mustKeep items
        (if cached then some (items.map Value.toJson) else none),
      index ∈ criticalIndices tools varianceThreshold items analysis ∧ index < items.length := by
  intro index hindex
  rw [criticalIndices, List.mem_toFinset, List.mem_append, List.mem_append]
  rcases List.mem_pair.mp hdefault with rfl | rfl
  · have herror : index ∈ detectErrorItemsForPreservation tools items none := by
      cases cached with
      | false => exact hindex
      | true => exact detectErrorItems_itemStrings tools items ▸ hindex
    exact ⟨.inl (.inl herror), List.mem_range.mp (List.mem_of_mem_filter herror)⟩
  · exact ⟨.inl (.inr hindex), lt_length_of_mem_outliers hindex⟩

end

/-! ## Repeated errors -/

/-- The tools as they are on texts of small letters. -/
def smallTools : TextTools where
  toLowercase := id
  md5 := fun bytes => (Md5.digest bytes).toList
  zlibCompressedLen := fun _ => 0

/-- The same error twice, and another row. -/
def faultRows : List Value :=
  [.object [(constant "a", .string (constant "error"))],
    .object [(constant "a", .string (constant "error"))],
    .object [(constant "a", .string (constant "ok"))]]

end Legroom.SmartCrusher
