import Legroom.Ccr.InMemory
import Legroom.SmartCrusher.Crusher

/-!
# Rows that are dropped

An array of objects that is not compacted loses the rows that its plan does not keep.  Its
text goes to the store, and the marker says how many rows are there.
-/

namespace Legroom.SmartCrusher

open Json Utf8

/-! ## Plans and positions -/

/-- The positions of the rows that are not kept. -/
def absentRows (plan : CompressionPlan) (items : List Value) : List ℕ :=
  (List.range items.length).filter (· ∉ plan.keepIndices)

/-- The rows that are kept, in their order. -/
def keptRows (plan : CompressionPlan) (items : List Value) : List Value :=
  (plan.keepIndices.insertionSort (· ≤ ·)).filterMap (items[·]?)

/-- The constants are taken out of the rows, and a row of their own has them. -/
def IsFactored (factorOutConstants : Bool) (plan : CompressionPlan) (items : List Value) : Prop :=
  factorOutConstants = true ∧ plan.constantFields ≠ [] ∧ 2 ≤ (keptRows plan items).length ∧
    (keptRows plan items).any (hasConstant plan.constantFields) = true

instance (factorOutConstants : Bool) (plan : CompressionPlan) (items : List Value) :
    Decidable (IsFactored factorOutConstants plan items) :=
  inferInstanceAs (Decidable (_ ∧ _ ∧ _ ∧ _))

/-- The row that has the constants. -/
def constantsRow (plan : CompressionPlan) : Value :=
  .object [(constant "_constant_fields", .object (Value.collect plan.constantFields))]

theorem executePlan_eq (factorOutConstants : Bool) (plan : CompressionPlan) (items : List Value) :
    executePlan factorOutConstants plan items =
      if IsFactored factorOutConstants plan items then
        constantsRow plan :: (keptRows plan items).map (withoutConstants plan.constantFields)
      else keptRows plan items := rfl

theorem length_executePlan (factorOutConstants : Bool) (plan : CompressionPlan)
    (items : List Value) : (executePlan factorOutConstants plan items).length =
      (keptRows plan items).length +
        if IsFactored factorOutConstants plan items then 1 else 0 := by
  rw [executePlan_eq]
  split_ifs
  · rw [List.length_cons, List.length_map]
  · rfl

theorem length_filterMap_getElem? {α : Type*} (items : List α) (indices : List ℕ) :
    (indices.filterMap (items[·]?)).length = (indices.filter (· < items.length)).length := by
  induction indices with
  | nil => rfl
  | cons index indices ih =>
      by_cases hindex : index < items.length
      · rw [List.filterMap_cons_some (List.getElem?_eq_getElem hindex), List.length_cons, ih]
        simp only [List.filter_cons, decide_eq_true hindex, if_true, List.length_cons]
      · rw [List.filterMap_cons_none (List.getElem?_eq_none (Nat.not_lt.mp hindex)), ih]
        simp only [List.filter_cons, decide_eq_false hindex, Bool.false_eq_true, if_false]

/-- Every row is kept or absent. -/
theorem length_keptRows {plan : CompressionPlan} (hnodup : plan.keepIndices.Nodup)
    (items : List Value) :
    (keptRows plan items).length + (absentRows plan items).length = items.length := by
  have hsorted : (keptRows plan items).length =
      (plan.keepIndices.filter (· < items.length)).length := by
    rw [keptRows, length_filterMap_getElem?]
    exact ((List.perm_insertionSort _ _).filter _).length_eq
  have hranged : (plan.keepIndices.filter (· < items.length)).Perm
      ((List.range items.length).filter (· ∈ plan.keepIndices)) := by
    refine (List.perm_ext_iff_of_nodup (hnodup.filter _) (List.nodup_range.filter _)).mpr fun index => ?_
    rw [List.mem_filter, List.mem_filter, List.mem_range, decide_eq_true_iff, decide_eq_true_iff]
    exact and_comm
  have hsplit := List.length_eq_length_filter_add (l := List.range items.length)
    (fun index => decide (index ∈ plan.keepIndices))
  rw [List.length_range] at hsplit
  have hnot : (List.range items.length).filter (fun index => decide (index ∉ plan.keepIndices)) =
      (List.range items.length).filter (fun index => !decide (index ∈ plan.keepIndices)) :=
    List.filter_congr fun index _ => decide_not
  rw [hsorted, hranged.length_eq, absentRows, hnot]
  exact hsplit.symm

/-! ## The lossy path -/

section

variable {F : Type*} [Float64 F] (crusher : SmartCrusher F) (query : Utf8String) (bias : F)

/-- The plan of an array that loses rows. -/
def lossyPlan (items : List Value) : Option CompressionPlan :=
  let itemStrings := items.map Value.toJson
  let adaptiveK := computeOptimalK crusher.tools itemStrings bias 3 (maxK crusher.config)
  if items.length ≤ adaptiveK then none
  else
    match losslessText crusher items itemStrings with
    | some _ => none
    | none => if crusher.config.losslessOnly then none else crusher.createPlan items query adaptiveK

/-- The marker of the rows that are in the store. -/
def rowsMarker (hash : Utf8String) (droppedCount : ℕ) : Utf8String :=
  constant "<<ccr:" ++ hash ++ constant " " ++ numberText droppedCount ++
    constant "_rows_offloaded>>"

/-- What is left when the plan is carried out. -/
def lossyResult (plan : CompressionPlan) (items : List Value) : CrushArrayResult :=
  let result := executePlan crusher.config.factorOutConstants plan items
  let droppedCount := items.length - result.length
  if 0 < droppedCount ∧ crusher.config.enableCcrMarker then
    let hash := hashOpaque (Value.array items).toJson
    ⟨result, some hash, rowsMarker hash droppedCount, none⟩
  else ⟨result, none, constant "", none⟩

/-- An array loses rows by a plan, or it has no marker. -/
theorem crushArray_cases (items : List Value) :
    match lossyPlan crusher query bias items with
    | some plan => crushArray crusher query bias items = lossyResult crusher plan items
    | none => ∃ compacted,
        crushArray crusher query bias items = ⟨items, none, constant "", compacted⟩ := by
  by_cases hlength : items.length ≤
      computeOptimalK crusher.tools (items.map Value.toJson) bias 3 (maxK crusher.config)
  · simp only [lossyPlan, crushArray, if_pos hlength]
    exact ⟨_, rfl⟩
  · cases hlossless : losslessText crusher items (items.map Value.toJson) with
    | some rendered =>
        simp only [lossyPlan, crushArray, if_neg hlength, hlossless]
        exact ⟨_, rfl⟩
    | none =>
        by_cases honly : crusher.config.losslessOnly = true
        · simp only [lossyPlan, crushArray, if_neg hlength, hlossless, if_pos honly]
          exact ⟨_, rfl⟩
        · cases hplan : crusher.createPlan items query
              (computeOptimalK crusher.tools (items.map Value.toJson) bias 3
                (maxK crusher.config)) with
          | none =>
              simp only [lossyPlan, crushArray, if_neg hlength, hlossless, if_neg honly, hplan]
              exact ⟨_, rfl⟩
          | some plan =>
              simp only [lossyPlan, crushArray, if_neg hlength, hlossless, if_neg honly, hplan]
              rfl

/-! ## Markers -/

variable {State : Type*} (ccrStore : CcrStore State)

/-- The store after the rows are dropped, from what the table left in it. -/
def storeAfter (store : State) (items : List Value) : State :=
  match (crushArray crusher query bias items).ccrHash with
  | some hash => ccrStore.put store hash (Value.array items).toJson
  | none => store

/-- The positions of the rows that the array loses. -/
def lostRows (items : List Value) : List ℕ :=
  match lossyPlan crusher query bias items with
  | some plan => absentRows plan items
  | none => []

/-- Where rows are lost, the marker names their number and a text in the store that has them;
where none is lost, there is no marker. -/
structure MarkerExact (store : State) (items : List Value) : Prop where
  marked : lostRows crusher query bias items ≠ [] →
    ∃ hash, (crushArray crusher query bias items).ccrHash = some hash ∧
      ccrStore.get (storeAfter crusher query bias ccrStore store items) hash =
        some (Value.array items).toJson ∧
      (crushArray crusher query bias items).droppedSummary =
        rowsMarker hash (lostRows crusher query bias items).length
  unmarked : lostRows crusher query bias items = [] →
    (crushArray crusher query bias items).ccrHash = none ∧
      (crushArray crusher query bias items).droppedSummary = constant ""

end

/-- A crusher whose plans are those of a planner. -/
def SmartCrusher.planned {F : Type*} (config : SmartCrusherConfig F) (tools : TextTools)
    (planner : Planner) (compaction : Option (CompactionStage F)) : SmartCrusher F where
  config := config
  tools := tools
  createPlan := planner.createPlan tools config.factorOutConstants
  compaction := compaction

theorem nodup_lossyPlan {F : Type*} [Float64 F] {config : SmartCrusherConfig F} {tools : TextTools}
    {planner : Planner} {compaction : Option (CompactionStage F)} {query : Utf8String} {bias : F}
    {items : List Value} {plan : CompressionPlan}
    (hplan : lossyPlan (.planned config tools planner compaction) query bias items = some plan) :
    plan.keepIndices.Nodup := by
  simp only [lossyPlan] at hplan
  split at hplan
  · cases hplan
  · split at hplan
    · cases hplan
    · split at hplan
      · cases hplan
      · exact Planner.nodup_keepIndices tools hplan

theorem rowsMarker_injective (hash : Utf8String) : Function.Injective (rowsMarker hash) := by
  intro left right hsame
  have hbytes := congrArg Utf8String.bytes hsame
  rw [rowsMarker, rowsMarker, Utf8String.bytes_append, Utf8String.bytes_append] at hbytes
  have hnumbers := List.append_cancel_right hbytes
  rw [Utf8String.bytes_append, Utf8String.bytes_append] at hnumbers
  exact decimal_injective (List.append_cancel_left hnumbers)

section

variable {F : Type*} [Float64 F] {crusher : SmartCrusher F} {query : Utf8String} {bias : F}
variable {State : Type*} {ccrStore : CcrStore State} {store : State} {items : List Value}
variable {plan : CompressionPlan}

/-- The number that the marker names, if there is a marker. -/
theorem droppedCount_eq (crusher : SmartCrusher F) (items : List Value)
    (hnodup : plan.keepIndices.Nodup) :
    items.length - (executePlan crusher.config.factorOutConstants plan items).length =
      (absentRows plan items).length -
        if IsFactored crusher.config.factorOutConstants plan items then 1 else 0 := by
  have hlength := length_keptRows hnodup items
  rw [length_executePlan]
  omega

theorem markerExact_of_count (henabled : crusher.config.enableCcrMarker = true)
    (hput : ∀ store hash content, ccrStore.get (ccrStore.put store hash content) hash = some
      content)
    (hplan : lossyPlan crusher query bias items = some plan)
    (hcount : items.length - (executePlan crusher.config.factorOutConstants plan items).length =
      (absentRows plan items).length) :
    MarkerExact crusher query bias ccrStore store items := by
  have hcases := crushArray_cases crusher query bias items
  simp only [hplan, lossyResult, hcount, henabled, and_true] at hcases
  have hlost : lostRows crusher query bias items = absentRows plan items := by
    rw [lostRows, hplan]
  by_cases hnone : absentRows plan items = []
  · rw [hnone, if_neg (by decide)] at hcases
    refine ⟨fun hsome => absurd (hlost.trans hnone) hsome, fun _ => ?_⟩
    rw [hcases]
    exact ⟨rfl, rfl⟩
  · rw [if_pos (List.length_pos_iff.mpr hnone)] at hcases
    refine ⟨fun _ => ⟨hashOpaque (Value.array items).toJson, ?_, ?_, ?_⟩, fun hempty =>
      absurd (hlost.symm.trans hempty) hnone⟩
    · rw [hcases]
    · rw [storeAfter, hcases]
      exact hput _ _ _
    · rw [hcases, hlost]

/-- A row too many in the output makes the number too small, or leaves the marker out. -/
theorem not_markerExact_of_factored (hnodup : plan.keepIndices.Nodup)
    (hplan : lossyPlan crusher query bias items = some plan) (hlost : absentRows plan items ≠ [])
    (hfactored : IsFactored crusher.config.factorOutConstants plan items) :
    ¬MarkerExact crusher query bias ccrStore store items := by
  intro hexact
  have hcases := crushArray_cases crusher query bias items
  have hcount := droppedCount_eq crusher items hnodup
  rw [if_pos hfactored] at hcount
  have hrows : lostRows crusher query bias items = absentRows plan items := by
    rw [lostRows, hplan]
  obtain ⟨hash, hhash, -, hsummary⟩ := hexact.marked (hrows ▸ hlost)
  simp only [hplan, lossyResult, hcount] at hcases
  split_ifs at hcases with hmarked
  · rw [hcases] at hhash hsummary
    obtain rfl := Option.some.inj hhash
    rw [hrows] at hsummary
    have hnumber := rowsMarker_injective _ hsummary
    have hpositive := List.length_pos_iff.mpr hlost
    omega
  · rw [hcases] at hhash
    cases hhash

end

/-- The digests of the windows of the row. -/
def rowDigests : List (Utf8String × Bytes) :=
  [(constant "\x7b\"a\"",
      [0xE1, 0x6C, 0x1B, 0xEA, 0xE2, 0xEB, 0x04, 0xED, 0xBE, 0x4E, 0x7D, 0x25, 0xAB, 0x93, 0x6B, 0x75]),
    (constant "\"a\":",
      [0x00, 0xC4, 0x95, 0x0C, 0x0A, 0x5C, 0x76, 0xB1, 0x4E, 0x2F, 0xA7, 0x60, 0x50, 0xD2, 0x48, 0x96]),
    (constant "a\":1",
      [0xA2, 0x57, 0x59, 0xF6, 0xF6, 0x13, 0x23, 0x86, 0x39, 0xA8, 0x8F, 0x93, 0xAB, 0x2D, 0x7E, 0xE3]),
    (constant "\":1\x7d",
      [0xB1, 0x51, 0xC5, 0x58, 0xF7, 0x5F, 0xF9, 0xED, 0x30, 0xBB, 0xBD, 0x0E, 0xEE, 0xC6, 0x4D, 0xBD])]

/-- The tools as they are on the row. -/
def rowTools : TextTools where
  toLowercase := id
  md5 := fun bytes => ((rowDigests.find? (·.1.bytes = bytes)).map Prod.snd).getD []
  zlibCompressedLen := fun _ => 0

def row : Value := .object [(constant "a", .number (numberAtom 1))]

def rows : List Value := List.replicate 9 row

/-- Three of the rows are kept, and their field is constant. -/
def rowPlanner : Planner where
  dedupIdenticalItems := false
  study := fun _ _ _ =>
    some ⟨false, [0, 4, 8].toFinset, ∅, [(constant "a", .number (numberAtom 1))]⟩

/-- The defaults without a table, and with or without constants of their own. -/
def rowCrusher (factorOutConstants : Bool) : SmartCrusher ℚ :=
  .planned { SmartCrusherConfig.default with factorOutConstants := factorOutConstants } rowTools
    rowPlanner none

/-- A store without a bound. -/
def mapStore : CcrStore (Utf8String → Option Utf8String) where
  put store hash content := fun key => if key = hash then some content else store key
  get store hash := store hash

section

variable {F : Type*} [Float64 F] (crusher : SmartCrusher F) (query : Utf8String) (bias : F)

/-- A number far from the mean of its group. -/
def StandsOut (values : List Value) (item : Value) : Prop :=
  ∃ center deviation value : F,
    Float64.mean (values.filterMap finiteNumber) = some center ∧
      Float64.sampleStdev (values.filterMap finiteNumber) = some deviation ∧
      Float64.lt (Float64.ofNat 0) deviation = true ∧ finiteNumber item = some value ∧
      Float64.lt (Float64.mul crusher.config.varianceThreshold deviation)
        (Float64.abs (Float64.sub value center)) = true

/-- A position at one of the ends of its group. -/
def AtEnd (values : List Value) (position : ℕ) : Prop :=
  let split := computeKSplit crusher.tools crusher.config (values.map Value.toJson) bias
  position < split.first ∨ values.length - split.last ≤ position

/-- The item at a position of its group is one that is to stay. -/
def GroupKeeps (values : List Value) (position : ℕ) (item : Value) : Prop :=
  values.length < crusher.config.minItemsToAnalyze ∨
    match item with
    | .object _ => item ∈ (crushArray crusher query bias values).items
    | .string text =>
        text ∈ crushStringArray crusher.tools crusher.config (values.filterMap Value.asStr) bias
    | .number _ => AtEnd crusher bias values position ∨ StandsOut crusher values item
    | _ => True

/-- Where the items of a group stand in the array. -/
def IsMember (items : List Value) (position index : ℕ) (item : Value) : Prop :=
  (groupOf (groupKey item) items)[position]? = some (item, index)

theorem mem_mixedNumberKeeps {group : List (Value × ℕ)} {position index : ℕ} {item : Value}
    (hmember : group[position]? = some (item, index))
    (hkeeps : AtEnd crusher bias (group.map Prod.fst) position ∨
      StandsOut crusher (group.map Prod.fst) item) :
    index ∈ mixedNumberKeeps crusher bias group := by
  have hposition : position < (group.map Prod.fst).length := by
    rw [List.length_map]
    exact (List.getElem?_eq_some_iff.mp hmember).1
  refine List.mem_filterMap.mpr ⟨position, ?_, by rw [hmember]; rfl⟩
  rcases hkeeps with hend | ⟨center, deviation, value, hmean, hstdev, hpos, hvalue, hfar⟩
  · refine List.mem_append_left _ (List.mem_filter.mpr ⟨List.mem_range.mpr hposition, ?_⟩)
    refine decide_eq_true ?_
    rw [AtEnd] at hend
    omega
  · have hitem : ((group.map Prod.fst).map (finiteNumber (F := F)))[position]? =
        some (some value) := by
      rw [List.getElem?_map, List.getElem?_map, hmember]
      exact congrArg some hvalue
    refine List.mem_append_right _ ?_
    simp only [hmean, hstdev]
    rw [outliers, if_pos hpos]
    refine List.mem_filter.mpr ⟨List.mem_range.mpr (by rwa [List.length_map]), ?_⟩
    rw [hitem]
    exact hfar

theorem mem_mixedKeeps {items : List Value} {position index : ℕ} {item : Value}
    (hmember : IsMember items position index item)
    (hkeeps : GroupKeeps crusher query bias ((groupOf (groupKey item) items).map Prod.fst)
      position item) :
    index ∈ mixedKeeps crusher query bias (groupKey item) (groupOf (groupKey item) items) := by
  have hmem : (item, index) ∈ groupOf (groupKey item) items := List.mem_of_getElem? hmember
  have hall : index ∈ (groupOf (groupKey item) items).map Prod.snd :=
    List.mem_map.mpr ⟨(item, index), hmem, rfl⟩
  rcases hkeeps with hfew | hkeeps
  · rw [List.length_map] at hfew
    rw [mixedKeeps.eq_def, if_pos hfew]
    exact hall
  · rw [mixedKeeps.eq_def]
    split_ifs with hfew
    · exact hall
    · cases item with
      | object fields =>
          refine List.mem_map.mpr ⟨(.object fields, index), List.mem_filter.mpr ⟨hmem, ?_⟩, rfl⟩
          exact decide_eq_true (List.mem_map_of_mem hkeeps)
      | string text =>
          rw [List.filterMap_map] at hkeeps
          refine List.mem_map.mpr ⟨(.string text, index), List.mem_filter.mpr ⟨hmem, ?_⟩, rfl⟩
          exact decide_eq_true hkeeps
      | number literal => exact mem_mixedNumberKeeps crusher bias hmember hkeeps
      | null => exact hall
      | bool value => exact hall
      | array elements => exact hall

theorem mem_typeKeys (key : TypeKey) :
    key ∈ ([.dict, .str, .bool, .number, .list, .none] : List TypeKey) := by
  cases key <;> decide

theorem keptAt_range {α : Type*} (items : List α) :
    keptAt items (List.range items.length) = items :=
  keptAt_eq_self_iff.mpr fun _ hindex => List.mem_range.mpr hindex

/-- Nothing is in a crushed mixed array but items at their places, and among them are
all that their groups keep. -/
theorem crushMixedArray_keeps (items : List Value) :
    ∃ keep, crushMixedArray crusher query bias items = keptAt items keep ∧
      ∀ position index item, items[index]? = some item → IsMember items position index item →
        GroupKeeps crusher query bias ((groupOf (groupKey item) items).map Prod.fst) position
          item → index ∈ keep := by
  rw [crushMixedArray]
  split_ifs with hshort
  · refine ⟨List.range items.length, (keptAt_range items).symm, ?_⟩
    intro position index item hitem hmember hkeeps
    exact List.mem_range.mpr (List.getElem?_eq_some_iff.mp hitem).1
  · refine ⟨_, rfl, fun position index item hitem hmember hkeeps => ?_⟩
    exact List.mem_flatMap.mpr ⟨groupKey item, mem_typeKeys _,
      mem_mixedKeeps crusher query bias hmember hkeeps⟩

end

/-! ## Numbers of a mixed array -/

/-- The tools as they are on the digits one and two. -/
def digitTools : TextTools where
  toLowercase := id
  md5 := fun bytes =>
    if bytes = (constant "1").bytes then
      [0xC4, 0xCA, 0x42, 0x38, 0xA0, 0xB9, 0x23, 0x82, 0x0D, 0xCC, 0x50, 0x9A, 0x6F, 0x75, 0x84, 0x9B]
    else
      [0xC8, 0x1E, 0x72, 0x8D, 0x9D, 0x4C, 0x2F, 0x63, 0x6F, 0x06, 0x7F, 0x89, 0xCC, 0x14, 0x86, 0x2C]
  zlibCompressedLen := fun _ => 0

def digit (value : ℕ) : Value := .number (numberAtom value)

/-- Nine numbers, in which the two at the middle is at the stride of the number crusher. -/
def digits : List Value := [1, 1, 2, 1, 2, 1, 2, 1, 1].map digit

def digitCrusher : SmartCrusher ℚ where
  config := .default
  tools := digitTools
  createPlan := fun _ _ _ => none
  compaction := none

theorem mem_keptAt {α : Type*} {items : List α} {keep : List ℕ} {index : ℕ} {item : α}
    (hitem : items[index]? = some item) (hkeep : index ∈ keep) : item ∈ keptAt items keep :=
  List.mem_filterMap.mpr ⟨(item, index), List.mk_mem_zipIdx_iff_getElem?.mpr hitem, if_pos hkeep⟩

/-- The crusher for numbers keeps a two, and the mixed array has none. -/
theorem digit_lost :
    (groupOf .number (digits ++ [.null])).map Prod.fst = digits ∧
      digit 2 ∈ crushNumberArray digitTools (.default : SmartCrusherConfig ℚ) digits 1 ∧
      digit 2 ∉ crushMixedArray digitCrusher (constant "") 1 (digits ++ [.null]) := by
  refine ⟨rfl, ?_, fun hmem => ?_⟩
  · have hlong : ¬(digits.length ≤ 8 ∨ (digits.filterMap (finiteNumber (F := ℚ))).isEmpty) := by
      decide +kernel
    have hkept : 4 ∈ numberKeepIndices digitTools (.default : SmartCrusherConfig ℚ) digits 1 := by
      decide +kernel
    rw [crushNumberArray, if_neg hlong]
    exact mem_keptAt rfl hkept
  · have hcrushed : (crushMixedArray digitCrusher (constant "") 1 (digits ++ [.null])).map
        Value.toJson = [digit 1, digit 1, .null].map Value.toJson := by
      decide +kernel
    have htext := List.mem_map_of_mem (f := Value.toJson) hmem
    rw [hcrushed] at htext
    revert htext
    decide

end Legroom.SmartCrusher
