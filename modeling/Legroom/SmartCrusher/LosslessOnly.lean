import Legroom.Lib.Json.Sorted
import Legroom.SmartCrusher.Crusher
import Legroom.SmartCrusher.Rows

/-!
# Crushing without loss

With `lossless_only` an array of objects is written as a table or stays as it is,
and texts are not taken out.  The crushers of the other arrays and of the objects
do not ask for it: what they spare is what they would have kept anyway.
-/

namespace Legroom.SmartCrusher

open Json Utf8

/-- All of a value is there, as it was, in a table, or in a text that is JSON. -/
inductive Lossless : Value → Value → Prop where
  | null : Lossless .null .null
  | bool (value : Bool) : Lossless (.bool value) (.bool value)
  | number (literal : Atom) : Lossless (.number literal) (.number literal)
  | string (text : Utf8String) : Lossless (.string text) (.string text)
  | array {items found : List Value} (hlength : items.length = found.length)
      (hitems : ∀ entry ∈ items.zip found, Lossless entry.1 entry.2) :
      Lossless (.array items) (.array found)
  | object {fields found : List (Utf8String × Value)}
      (hnames : fields.map Prod.fst = found.map Prod.fst)
      (hfields : ∀ entry ∈ fields.zip found, Lossless entry.1.2 entry.2.2) :
      Lossless (.object fields) (.object found)
  | table {items : List Value} {compaction : Compaction}
      (hcompacted : compaction.wasCompacted = true) (hunmarked : Unmarked compaction)
      (hholds : Holds compaction items) :
      Lossless (.array items) (.string (CsvSchemaFormatter.format ⟨false⟩ compaction))
  | text {text : Utf8String} {parsed found : Value}
      (hparsed : tryParseJsonContainer text = some parsed) (hfound : Lossless parsed found) :
      Lossless (.string text) (.string (containerText found))

theorem mem_zip_self {α : Type*} {items : List α} {entry : α × α}
    (hentry : entry ∈ items.zip items) : entry.1 ∈ items ∧ entry.1 = entry.2 := by
  rw [← List.map_id items, List.zip_map'] at hentry
  obtain ⟨item, hitem, rfl⟩ := List.mem_map.mp hentry
  exact ⟨hitem, rfl⟩

theorem mem_zip_map {α β : Type*} {items : List α} {change : α → β} {entry : α × β}
    (hentry : entry ∈ items.zip (items.map change)) :
    entry.1 ∈ items ∧ entry.2 = change entry.1 := by
  rw [← List.map_id items, List.map_map, List.zip_map'] at hentry
  obtain ⟨item, hitem, rfl⟩ := List.mem_map.mp hentry
  exact ⟨hitem, rfl⟩

theorem Lossless.refl (value : Value) : Lossless value value := by
  induction value using Value.inductionOn with
  | null => exact .null
  | bool value => exact .bool value
  | number literal => exact .number literal
  | string text => exact .string text
  | array items ih =>
      refine .array rfl fun entry hentry => ?_
      obtain ⟨hitem, hsame⟩ := mem_zip_self hentry
      rw [← hsame]
      exact ih _ hitem
  | object fields ih =>
      refine .object rfl fun entry hentry => ?_
      obtain ⟨hfield, hsame⟩ := mem_zip_self hentry
      rw [← hsame]
      exact ih _ hfield

variable {items : List Value} {change : Value → Value}

theorem Lossless.map (hchange : ∀ item ∈ items, Lossless item (change item)) :
    Lossless (.array items) (.array (items.map change)) := by
  refine .array (List.length_map _).symm fun entry hentry => ?_
  obtain ⟨hitem, hfound⟩ := mem_zip_map hentry
  rw [hfound]
  exact hchange _ hitem

variable {fields : List (Utf8String × Value)}

theorem Lossless.mapFields (hchange : ∀ field ∈ fields, Lossless field.2 (change field.2)) :
    Lossless (.object fields) (.object (fields.map fun field => (field.1, change field.2))) := by
  refine .object (by simp) fun entry hentry => ?_
  obtain ⟨hfield, hfound⟩ := mem_zip_map hentry
  rw [hfound]
  exact hchange _ hfield

theorem mem_zip_of_mem_right {α β : Type*} {lefts : List α} {rights : List β}
    (hlength : lefts.length = rights.length) {right : β} (hright : right ∈ rights) :
    ∃ left ∈ lefts, (left, right) ∈ lefts.zip rights := by
  rw [← List.map_snd_zip (Nat.le_of_eq hlength.symm)] at hright
  obtain ⟨entry, hentry, rfl⟩ := List.mem_map.mp hright
  exact ⟨entry.1, (List.of_mem_zip hentry).1, hentry⟩

theorem Lossless.wellFormed {value found : Value} (hlossless : Lossless value found)
    (hvalue : value.WellFormed) : found.WellFormed := by
  induction hlossless with
  | array hlength hitems ih =>
      refine Value.wellFormedElements_iff.mpr fun item hitem => ?_
      obtain ⟨source, hsource, hentry⟩ := mem_zip_of_mem_right hlength hitem
      exact ih _ hentry (Value.wellFormedElements_iff.mp hvalue source hsource)
  | object hnames hfields ih =>
      have hlength := congrArg List.length hnames
      rw [List.length_map, List.length_map] at hlength
      refine ⟨hnames ▸ hvalue.1, Value.wellFormedFields_iff.mpr fun field hfield => ?_⟩
      obtain ⟨source, hsource, hentry⟩ := mem_zip_of_mem_right hlength hfield
      exact ih _ hentry (Value.wellFormedFields_iff.mp hvalue.2 source hsource)
  | table => trivial
  | text => trivial
  | _ => exact hvalue

theorem tryParseJsonContainer_spec {text : Utf8String} {parsed : Value}
    (hparse : tryParseJsonContainer text = some parsed) :
    valueFromSlice text.bytes = some parsed ∧ isContainer parsed = true := by
  rw [tryParseJsonContainer] at hparse
  split at hparse
  · split_ifs at hparse
    exact Option.filter_eq_some_iff.mp hparse
  · cases hparse

/-! ## Documents that agree -/

/-- All is there, or the value is the same for the crusher. -/
def Agrees (value found : Value) : Prop := Lossless value found ∨ found.same value

theorem agrees_array {found : List Value} (hagrees : Agrees (.array items) (.array found)) :
    items.length = found.length ∧ ∀ entry ∈ items.zip found, Agrees entry.1 entry.2 := by
  rcases hagrees with hlossless | hsame
  · cases hlossless with
    | array hlength hitems => exact ⟨hlength, fun entry hentry => .inl (hitems entry hentry)⟩
  · rw [Value.same, Value.sameElements_iff] at hsame
    refine ⟨hsame.length_eq.symm, fun entry hentry => .inr ?_⟩
    exact List.forall₂_zip hsame.flip hentry

theorem fst_eq_of_mem_zip {α β γ : Type*} {lefts : List (α × β)} {rights : List (α × γ)}
    (hnames : lefts.map Prod.fst = rights.map Prod.fst) {entry : (α × β) × (α × γ)}
    (hentry : entry ∈ lefts.zip rights) : entry.1.1 = entry.2.1 := by
  obtain ⟨index, hindex⟩ := List.mem_iff_getElem?.mp hentry
  obtain ⟨hleft, hright⟩ := List.getElem?_zip_eq_some.mp hindex
  have hfirst := congrArg (·[index]?) hnames
  simp only [List.getElem?_map, hleft, hright, Option.map_some] at hfirst
  exact Option.some.inj hfirst

theorem agrees_object {found : List (Utf8String × Value)}
    (hagrees : Agrees (.object fields) (.object found)) :
    fields.length = found.length ∧ ((fields.map Prod.fst).Nodup →
      fields.map Prod.fst = found.map Prod.fst →
        ∀ entry ∈ fields.zip found, Agrees entry.1.2 entry.2.2) := by
  rcases hagrees with hlossless | hsame
  · cases hlossless with
    | object hnames hfields =>
        have hlength := congrArg List.length hnames
        rw [List.length_map, List.length_map] at hlength
        exact ⟨hlength, fun _ _ entry hentry => .inl (hfields entry hentry)⟩
  · rw [Value.same, Bool.and_eq_true, beq_iff_eq, Value.sameFields_iff] at hsame
    refine ⟨hsame.1.symm, fun hnodup hnames entry hentry => .inr ?_⟩
    obtain ⟨hfield, hfound⟩ := List.of_mem_zip hentry
    obtain ⟨other, hfind, hvalue⟩ := hsame.2 entry.2 hfound
    have hname : other.1 = entry.2.1 := by simpa using List.find?_some hfind
    have hother := List.mem_of_find?_eq_some hfind
    rwa [← List.inj_on_of_nodup_map hnodup hother hfield
      (hname.trans (fst_eq_of_mem_zip hnames hentry).symm)]

/-! ## What is spared -/

section

variable {F : Type*} [Float64 F]

section

variable (tools : TextTools) (config : SmartCrusherConfig F) (bias : F)

def StringsSpared (items : List Utf8String) : Prop :=
  items.length ≤ 8 ∨ Covers (stringKeepIndices tools config items bias) items.length

def NumbersSpared (items : List Value) : Prop :=
  items.length ≤ 8 ∨ (items.filterMap (finiteNumber (F := F))).isEmpty ∨
    Covers (numberKeepIndices tools config items bias) items.length

def FieldsSpared (fields : List (Utf8String × Value)) : Prop :=
  let total := computeOptimalK tools (fields.map fieldText) bias 3 (maxK config)
  fields.length ≤ 8 ∨ (fields.map fieldTokens).sum < config.minTokensToCrush ∨
    fields.length ≤ total ∨ Covers (objectKeepIndices tools config fields total) fields.length

theorem crushStringArray_sublist (items : List Utf8String) :
    (crushStringArray tools config items bias).Sublist items := by
  rw [crushStringArray]
  split_ifs
  · exact List.Sublist.refl items
  · exact keptAt_sublist items _

theorem crushStringArray_eq_self_iff {items : List Utf8String} :
    crushStringArray tools config items bias = items ↔ StringsSpared tools config bias items := by
  rw [crushStringArray, StringsSpared]
  split_ifs with hshort
  · exact iff_of_true rfl (.inl hshort)
  · rw [keptAt_eq_self_iff, or_iff_right hshort]

theorem crushNumberArray_sublist (items : List Value) :
    (crushNumberArray tools config items bias).Sublist items := by
  rw [crushNumberArray]
  split_ifs
  · exact List.Sublist.refl items
  · exact keptAt_sublist items _

theorem crushNumberArray_eq_self_iff {items : List Value} :
    crushNumberArray tools config items bias = items ↔ NumbersSpared tools config bias items := by
  rw [crushNumberArray, NumbersSpared, ← or_assoc]
  split_ifs with hshort
  · exact iff_of_true rfl (.inl hshort)
  · rw [keptAt_eq_self_iff, or_iff_right hshort]

theorem crushObject_sublist (fields : List (Utf8String × Value)) :
    ((crushObject tools config fields bias).getD fields).Sublist fields := by
  rw [crushObject]
  dsimp only
  split_ifs
  · exact List.Sublist.refl fields
  · exact List.Sublist.refl fields
  · exact keptAt_sublist fields _

theorem crushObject_eq_self_iff {fields : List (Utf8String × Value)} :
    (crushObject tools config fields bias).getD fields = fields ↔
      FieldsSpared tools config bias fields := by
  rw [crushObject, FieldsSpared, ← or_assoc]
  dsimp only
  split_ifs with hshort hfew
  · exact iff_of_true rfl (.inl hshort)
  · exact iff_of_true rfl (.inr (.inl hfew))
  · rw [or_iff_right hshort, or_iff_right hfew]
    exact keptAt_eq_self_iff

end

variable (crusher : SmartCrusher F) (query : Utf8String) (bias : F)

def MixedSpared (items : List Value) : Prop :=
  items.length ≤ 8 ∨
    Covers (([.dict, .str, .bool, .number, .list, .none] : List TypeKey).flatMap fun key =>
      mixedKeeps crusher query bias key (groupOf key items)) items.length

theorem crushMixedArray_sublist (items : List Value) :
    (crushMixedArray crusher query bias items).Sublist items := by
  rw [crushMixedArray]
  split_ifs
  · exact List.Sublist.refl items
  · exact keptAt_sublist items _

variable {items : List Value}

theorem crushMixedArray_eq_self_iff :
    crushMixedArray crusher query bias items = items ↔
      MixedSpared crusher query bias items := by
  rw [crushMixedArray, MixedSpared]
  split_ifs with hshort
  · exact iff_of_true rfl (.inl hshort)
  · rw [keptAt_eq_self_iff, or_iff_right hshort]

/-- A document with its tables written and nothing dropped. -/
def tabulated : ℕ → Value → Value
  | 0, value => value
  | fuel + 1, .array items =>
      if items.length < crusher.config.minItemsToAnalyze then
        .array (items.map (tabulated fuel))
      else
        match classifyArray items with
        | .dictArray =>
            match (crushArray crusher query bias items).compacted with
            | some rendered => .string rendered
            | none => .array items
        | .stringArray => .array items
        | .numberArray => .array items
        | .mixedArray => .array items
        | _ => .array (items.map (tabulated fuel))
  | fuel + 1, .object fields =>
      .object (fields.map fun field => (field.1, tabulated fuel field.2))
  | fuel + 1, .string text => processString crusher (tabulated fuel) text
  | _ + 1, value => value

/-- Every array and every object that a crusher comes to is spared. -/
def Spared : ℕ → Value → Prop
  | 0, _ => True
  | fuel + 1, .array items =>
      if items.length < crusher.config.minItemsToAnalyze then
        ∀ item ∈ items, Spared fuel item
      else
        match classifyArray items with
        | .dictArray => True
        | .stringArray =>
            StringsSpared crusher.tools crusher.config bias (items.filterMap Value.asStr)
        | .numberArray => NumbersSpared crusher.tools crusher.config bias items
        | .mixedArray => MixedSpared crusher query bias items
        | _ => ∀ item ∈ items, Spared fuel item
  | fuel + 1, .object fields =>
      (∀ field ∈ fields, Spared fuel field.2) ∧
        (fields.length < crusher.config.minItemsToAnalyze ∨
          FieldsSpared crusher.tools crusher.config bias
            (fields.map fun field => (field.1, tabulated crusher query bias fuel field.2)))
  | fuel + 1, .string text => ∀ parsed, tryParseJsonContainer text = some parsed → Spared fuel parsed
  | _ + 1, _ => True

/-! ## Arrays of objects -/

/-- The array as it is, or its table. -/
theorem crushArray_losslessOnly (hlossless : crusher.config.losslessOnly = true)
    (items : List Value) :
    crushArray crusher query bias items = ⟨items, none, constant "", none⟩ ∨
      ∃ rendered, losslessText crusher items (items.map Value.toJson) = some rendered ∧
        crushArray crusher query bias items = ⟨items, none, constant "", some rendered⟩ := by
  rw [crushArray]
  dsimp only
  rw [hlossless, if_pos rfl]
  split_ifs
  · exact .inl rfl
  · cases losslessText crusher items (items.map Value.toJson) with
    | some rendered => exact .inr ⟨rendered, rfl, rfl⟩
    | none => exact .inl rfl

theorem processValue_dictArray (hlossless : crusher.config.losslessOnly = true) {fuel : ℕ}
    (hlength : ¬items.length < crusher.config.minItemsToAnalyze)
    (hclass : classifyArray items = .dictArray) :
    processValue crusher query bias (fuel + 1) (.array items) =
      tabulated crusher query bias (fuel + 1) (.array items) := by
  rw [processValue, tabulated, if_neg hlength, if_neg hlength, hclass]
  dsimp only
  rcases crushArray_losslessOnly crusher query bias hlossless items with
    hcrush | ⟨rendered, -, hcrush⟩
  · have hempty : (constant "").bytes.isEmpty = true := by decide
    rw [hcrush]
    dsimp only
    rw [sentinelItems, hempty, if_pos rfl, List.append_nil]
  · rw [hcrush]

/-! ## Spared documents -/

theorem groupKey_of_stringArray (hclass : classifyArray items = .stringArray) :
    ∀ item ∈ items, groupKey item = .str := by
  cases items with
  | nil => cases hclass
  | cons first items =>
      rw [classifyArray] at hclass
      split_ifs at hclass with hall
      have hfirst : groupKey first = .str := by
        cases first with
        | string text => rfl
        | _ => cases hclass
      refine List.forall_mem_cons.mpr ⟨hfirst, fun item hitem => ?_⟩
      rw [of_decide_eq_true (List.all_eq_true.mp hall item hitem), hfirst]

theorem strings_of_classifyArray (hclass : classifyArray items = .stringArray) :
    (items.filterMap Value.asStr).map Value.string = items := by
  have hkeys := groupKey_of_stringArray hclass
  clear hclass
  induction items with
  | nil => rfl
  | cons item items ih =>
      obtain ⟨hitem, hitems⟩ := List.forall_mem_cons.mp hkeys
      cases item with
      | string text =>
          rw [List.filterMap_cons, Value.asStr, List.map_cons, ih hitems]
      | _ => cases hitem

section

variable {crusher query bias} (hlossless : crusher.config.losslessOnly = true)
include hlossless

theorem emitOpaqueMarkers_losslessOnly :
    (compactConfig crusher.config).classify.emitOpaqueMarkers = false := by
  simp [compactConfig, SmartCrusherConfig.opaqueMarkersEnabled, hlossless]

variable {text : Utf8String}

theorem processString_losslessOnly {processed : Value → Value}
    (hnone : tryParseJsonContainer text = none) :
    processString crusher processed text = .string text := by
  have hclass : classifyString (compactConfig crusher.config).classify text = .scalar := by
    rw [classifyString, hnone]
    exact if_pos (.inr (emitOpaqueMarkers_losslessOnly hlossless))
  rw [processString, hnone]
  dsimp only
  rw [hclass]

variable (hcompaction : crusher.compaction = some ⟨compactConfig crusher.config, ⟨false⟩⟩)
include hcompaction

variable {rendered : Utf8String}

theorem lossless_losslessText {items : List Value}
    (hrendered : losslessText crusher items (items.map Value.toJson) = some rendered) :
    Lossless (.array items) (.string rendered) := by
  have hmarkers := emitOpaqueMarkers_losslessOnly hlossless
  rw [losslessText, hcompaction, Option.bind_some] at hrendered
  obtain ⟨hsaves, hformat⟩ := Option.ite_none_right_eq_some.mp hrendered
  rw [← Option.some.inj hformat]
  exact .table hsaves.1 (compactInner_unmarked _ hmarkers _ items)
    (compactInner_holds _ hmarkers _ items)

/-- Nothing of a document is lost to its tables. -/
theorem lossless_tabulated (fuel : ℕ) (value : Value) :
    Lossless value (tabulated crusher query bias fuel value) := by
  induction fuel generalizing value with
  | zero => exact Lossless.refl value
  | succ fuel ih =>
      cases value with
      | array items =>
          have hitems := Lossless.map fun item (_ : item ∈ items) => ih item
          rw [tabulated]
          split_ifs
          · exact hitems
          · split
            · rcases crushArray_losslessOnly crusher query bias hlossless items with
                hcrush | ⟨rendered, hrendered, hcrush⟩
              · rw [hcrush]
                exact Lossless.refl _
              · rw [hcrush]
                exact lossless_losslessText hlossless hcompaction hrendered
            · exact Lossless.refl _
            · exact Lossless.refl _
            · exact Lossless.refl _
            · exact hitems
      | object fields =>
          rw [tabulated]
          exact Lossless.mapFields fun field _ => ih field.2
      | string text =>
          rw [tabulated]
          cases hparse : tryParseJsonContainer text with
          | none =>
              rw [processString_losslessOnly hlossless hparse]
              exact Lossless.refl _
          | some parsed =>
              rw [processString, hparse]
              dsimp only
              split_ifs
              · exact Lossless.refl _
              · exact .text hparse (ih parsed)
      | _ =>
          rw [tabulated]
          · exact Lossless.refl _
          all_goals simp

variable {fuel : ℕ} {value : Value}

omit hcompaction in
/-- What is spared is processed to the document with its tables. -/
theorem processValue_of_spared (hspared : Spared crusher query bias fuel value) :
    processValue crusher query bias fuel value = tabulated crusher query bias fuel value := by
  induction fuel generalizing value with
  | zero => rfl
  | succ fuel ih =>
      cases value with
      | array items =>
          rw [Spared] at hspared
          split_ifs at hspared with hlength
          · rw [processValue_short hlength, tabulated, if_pos hlength]
            exact congrArg Value.array (List.map_congr_left fun item hitem => ih (hspared item hitem))
          · cases hclass : classifyArray items with
            | dictArray => exact processValue_dictArray _ query bias hlossless hlength hclass
            | stringArray =>
                rw [hclass] at hspared
                rw [processValue_stringArray hlength hclass, tabulated, if_neg hlength, hclass,
                  (crushStringArray_eq_self_iff _ _ _).mpr hspared,
                  strings_of_classifyArray hclass]
            | numberArray =>
                rw [hclass] at hspared
                rw [processValue_numberArray hlength hclass, tabulated, if_neg hlength, hclass,
                  (crushNumberArray_eq_self_iff _ _ _).mpr hspared]
            | mixedArray =>
                rw [hclass] at hspared
                rw [processValue_mixedArray hlength hclass, tabulated, if_neg hlength, hclass,
                  (crushMixedArray_eq_self_iff _ _ _).mpr hspared]
            | _ =>
                rw [hclass] at hspared
                rw [processValue_items (by simp [hclass]), tabulated, if_neg hlength, hclass]
                exact congrArg Value.array
                  (List.map_congr_left fun item hitem => ih (hspared item hitem))
      | object fields =>
          rw [Spared] at hspared
          obtain ⟨hfields, hcrushed⟩ := hspared
          have hprocessed : (fields.map fun field =>
              (field.1, processValue crusher query bias fuel field.2)) =
                fields.map fun field => (field.1, tabulated crusher query bias fuel field.2) :=
            List.map_congr_left fun field hfield => by rw [ih (hfields field hfield)]
          rw [processValue_object, tabulated, hprocessed]
          dsimp only
          split_ifs with hlength
          · rfl
          · exact congrArg Value.object
              ((crushObject_eq_self_iff _ _ _).mpr (hcrushed.resolve_left hlength))
      | string text =>
          rw [Spared] at hspared
          rw [processValue_string, tabulated, processString, processString]
          cases hparse : tryParseJsonContainer text with
          | none => rfl
          | some parsed =>
              dsimp only
              rw [ih (hspared parsed hparse)]
      | _ =>
          rw [processValue, tabulated]
          all_goals simp

theorem wellFormed_processValue (hvalue : value.WellFormed) :
    (processValue crusher query bias fuel value).WellFormed := by
  induction fuel generalizing value with
  | zero => exact hvalue
  | succ fuel ih =>
      cases value with
      | array items =>
          have hitems := Value.wellFormedElements_iff.mp hvalue
          have hmap : (Value.array (items.map (processValue crusher query bias fuel))).WellFormed := by
            refine Value.wellFormedElements_iff.mpr fun item hitem => ?_
            obtain ⟨source, hsource, rfl⟩ := List.mem_map.mp hitem
            exact ih (hitems source hsource)
          have hsublist : ∀ kept, kept.Sublist items → (Value.array kept).WellFormed :=
            fun kept hkept => Value.wellFormedElements_iff.mpr fun item hitem =>
              hitems item (hkept.subset hitem)
          by_cases hlength : items.length < crusher.config.minItemsToAnalyze
          · rw [processValue_short hlength]
            exact hmap
          · cases hclass : classifyArray items with
            | dictArray =>
                rw [processValue_dictArray _ query bias hlossless hlength hclass]
                exact (lossless_tabulated hlossless hcompaction _ _).wellFormed hvalue
            | stringArray =>
                rw [processValue_stringArray hlength hclass]
                refine hsublist _ ?_
                have hcrushed := (crushStringArray_sublist crusher.tools crusher.config bias
                  (items.filterMap Value.asStr)).map Value.string
                rwa [strings_of_classifyArray hclass] at hcrushed
            | numberArray =>
                rw [processValue_numberArray hlength hclass]
                exact hsublist _ (crushNumberArray_sublist _ _ _ _)
            | mixedArray =>
                rw [processValue_mixedArray hlength hclass]
                exact hsublist _ (crushMixedArray_sublist _ _ _ _)
            | _ =>
                rw [processValue_items (by simp [hclass])]
                exact hmap
      | object fields =>
          have hprocessed : (Value.object (fields.map fun field =>
              (field.1, processValue crusher query bias fuel field.2))).WellFormed := by
            refine ⟨by rw [List.map_map]; exact hvalue.1, Value.wellFormedFields_iff.mpr fun field hfield => ?_⟩
            obtain ⟨source, hsource, rfl⟩ := List.mem_map.mp hfield
            exact ih (Value.wellFormedFields_iff.mp hvalue.2 source hsource)
          rw [processValue_object]
          dsimp only
          split_ifs
          · exact hprocessed
          · have hsublist := crushObject_sublist crusher.tools crusher.config bias (fields.map
              fun field => (field.1, processValue crusher query bias fuel field.2))
            exact ⟨hprocessed.1.sublist (hsublist.map Prod.fst), Value.wellFormedFields_iff.mpr
              fun field hfield =>
                Value.wellFormedFields_iff.mp hprocessed.2 field (hsublist.subset hfield)⟩
      | string text =>
          rw [processValue_string, processString.eq_def]
          split
          · split_ifs <;> trivial
          · split <;> trivial
      | _ =>
          rw [processValue]
          · exact hvalue
          all_goals simp

omit hlossless hcompaction in
/-- Only an array of objects is processed to a text. -/
theorem spared_of_string (hcontainer : isContainer value = true)
    (hstring : processValue crusher query bias fuel value = .string rendered) :
    Spared crusher query bias fuel value := by
  cases fuel with
  | zero => trivial
  | succ fuel =>
      cases value with
      | array items =>
          by_cases hlength : items.length < crusher.config.minItemsToAnalyze
          · rw [processValue_short hlength] at hstring
            cases hstring
          · rw [Spared, if_neg hlength]
            cases hclass : classifyArray items with
            | dictArray => trivial
            | stringArray =>
                rw [processValue_stringArray hlength hclass] at hstring
                cases hstring
            | numberArray =>
                rw [processValue_numberArray hlength hclass] at hstring
                cases hstring
            | mixedArray =>
                rw [processValue_mixedArray hlength hclass] at hstring
                cases hstring
            | _ =>
                rw [processValue_items (by simp [hclass])] at hstring
                cases hstring
      | object fields =>
          rw [processValue_object] at hstring
          dsimp only at hstring
          split_ifs at hstring
      | _ => cases hcontainer

omit hlossless hcompaction in
theorem containerText_of_not_string (hvalue : ∀ text, value ≠ .string text) :
    containerText value = value.toJson := by
  cases value with
  | string text => exact absurd rfl (hvalue text)
  | _ => rfl

omit hlossless hcompaction in
/-- A table is not the JSON of a value. -/
theorem toJson_ne_of_lossless (hcontainer : isContainer value = true)
    (hfound : Lossless value (.string rendered)) (other : Value) : other.toJson ≠ rendered := by
  cases hfound with
  | string => cases hcontainer
  | text => cases hcontainer
  | @table items compaction hcompacted hunmarked hholds =>
      rintro hwritten
      obtain ⟨front, byte, hlast, hspace⟩ := other.exists_last_toJson
      have hline := CsvSchemaFormatter.endsLine_format ⟨false⟩ hcompacted fun _ _ _ hmarker => by
        rw [hmarker] at hunmarked
        exact hunmarked
      rw [← hwritten, CsvSchemaFormatter.EndsLine, hlast, List.getLast?_concat] at hline
      rw [Option.some.inj hline] at hspace
      cases hspace

/-- A text that was processed agrees if the value in it does. -/
theorem agrees_of_containerText {parsed : Value} (hparse : tryParseJsonContainer text = some parsed)
    (hagrees : Agrees (.string text)
      (.string (containerText (processValue crusher query bias fuel parsed)))) :
    (∃ rendered, processValue crusher query bias fuel parsed = .string rendered) ∨
      Agrees parsed (processValue crusher query bias fuel parsed) := by
  obtain ⟨hread, hcontainer⟩ := tryParseJsonContainer_spec hparse
  have hparsed := wellFormed_valueFromSlice hread
  have hprocessed : (processValue crusher query bias fuel parsed).WellFormed :=
    wellFormed_processValue hlossless hcompaction hparsed
  generalize processValue crusher query bias fuel parsed = processed at hagrees hprocessed ⊢
  by_cases hstring : ∃ rendered, processed = .string rendered
  · exact .inl hstring
  · have htext := containerText_of_not_string fun rendered hrendered =>
      hstring ⟨rendered, hrendered⟩
    rw [htext] at hagrees
    -- The text of the processed value is that of the value it was parsed from.
    have hself : processed.toJson = text → Agrees parsed processed := by
      rintro rfl
      rw [Value.eq_of_valueFromSlice_toJson hprocessed hread]
      exact .inl (Lossless.refl processed)
    refine .inr ?_
    rcases hagrees with hlossless | hsame
    · generalize hwritten : processed.toJson = written at hlossless hself
      cases hlossless with
      | string => exact hself rfl
      | @text _ other found hother hfound =>
          cases Option.some.inj (hparse.symm.trans hother)
          by_cases hfoundString : ∃ rendered, found = .string rendered
          · obtain ⟨rendered, rfl⟩ := hfoundString
            exact absurd hwritten (toJson_ne_of_lossless hcontainer hfound processed)
          · rw [containerText_of_not_string fun rendered hrendered =>
              hfoundString ⟨rendered, hrendered⟩] at hwritten
            have hsame := Value.toJson_injective hprocessed (hfound.wellFormed hparsed) hwritten
            exact .inl (hsame ▸ hfound)
    · rw [Value.same] at hsame
      exact hself (eq_of_beq hsame)

/-- Where all of a document is left, nothing that the crushers came to was dropped. -/
theorem spared_of_agrees (hvalue : value.WellFormed)
    (hagrees : Agrees value (processValue crusher query bias fuel value)) :
    Spared crusher query bias fuel value := by
  induction fuel generalizing value with
  | zero => trivial
  | succ fuel ih =>
      cases value with
      | array items =>
          have hitems := Value.wellFormedElements_iff.mp hvalue
          have hmap : Agrees (.array items)
              (.array (items.map (processValue crusher query bias fuel))) →
                ∀ item ∈ items, Spared crusher query bias fuel item := by
            intro hagrees item hitem
            refine ih (hitems item hitem) ((agrees_array hagrees).2
              (item, processValue crusher query bias fuel item) ?_)
            rw [← List.map_id items, List.map_map, List.zip_map']
            exact List.mem_map_of_mem hitem
          rw [Spared]
          split_ifs with hlength
          · rw [processValue_short hlength] at hagrees
            exact hmap hagrees
          · cases hclass : classifyArray items with
            | dictArray => trivial
            | stringArray =>
                rw [processValue_stringArray hlength hclass] at hagrees
                have hkept := (agrees_array hagrees).1
                rw [List.length_map] at hkept
                refine (crushStringArray_eq_self_iff _ _ _).mp ?_
                refine (crushStringArray_sublist _ _ _ _).eq_of_length ?_
                rw [← hkept, ← List.length_map (f := Value.string), strings_of_classifyArray hclass]
            | numberArray =>
                rw [processValue_numberArray hlength hclass] at hagrees
                refine (crushNumberArray_eq_self_iff _ _ _).mp ?_
                exact (crushNumberArray_sublist _ _ _ _).eq_of_length (agrees_array hagrees).1.symm
            | mixedArray =>
                rw [processValue_mixedArray hlength hclass] at hagrees
                refine (crushMixedArray_eq_self_iff _ _ _).mp ?_
                exact (crushMixedArray_sublist _ _ _ _).eq_of_length (agrees_array hagrees).1.symm
            | _ =>
                rw [processValue_items (by simp [hclass])] at hagrees
                exact hmap hagrees
      | object fields =>
          have hfields : Agrees (.object fields) (.object (fields.map fun field =>
              (field.1, processValue crusher query bias fuel field.2))) →
                ∀ field ∈ fields, Spared crusher query bias fuel field.2 := by
            intro hagrees field hfield
            refine ih (Value.wellFormedFields_iff.mp hvalue.2 field hfield)
              ((agrees_object hagrees).2 hvalue.1 (by rw [List.map_map]; rfl)
                (field, field.1, processValue crusher query bias fuel field.2) ?_)
            rw [← List.map_id fields, List.map_map, List.zip_map']
            exact List.mem_map_of_mem hfield
          rw [processValue_object] at hagrees
          dsimp only at hagrees
          rw [Spared]
          split_ifs at hagrees with hlength
          · exact ⟨hfields hagrees, .inl hlength⟩
          · have hcrushed := (crushObject_sublist crusher.tools crusher.config bias (fields.map
              fun field => (field.1, processValue crusher query bias fuel field.2))).eq_of_length
                (by rw [← (agrees_object hagrees).1, List.length_map])
            rw [hcrushed] at hagrees
            have hspared := hfields hagrees
            have hprocessed : (fields.map fun field =>
                (field.1, processValue crusher query bias fuel field.2)) =
                  fields.map fun field => (field.1, tabulated crusher query bias fuel field.2) :=
              List.map_congr_left fun field hfield => by
                rw [processValue_of_spared hlossless (hspared field hfield)]
            rw [hprocessed] at hcrushed
            exact ⟨hspared, .inr ((crushObject_eq_self_iff _ _ _).mp hcrushed)⟩
      | string text =>
          rw [Spared]
          intro parsed hparse
          rw [processValue_string, processString, hparse] at hagrees
          dsimp only at hagrees
          obtain ⟨hread, hcontainer⟩ := tryParseJsonContainer_spec hparse
          have hparsed := wellFormed_valueFromSlice hread
          split_ifs at hagrees with hsame
          · exact ih hparsed (.inr hsame)
          · rcases agrees_of_containerText hlossless hcompaction hparse hagrees with
              ⟨rendered, hstring⟩ | hagrees
            · exact spared_of_string hcontainer hstring
            · exact ih hparsed hagrees
      | _ =>
          rw [Spared]
          all_goals simp

end

/-- Nothing of a document is lost. -/
def CrushesLosslessly (content : Utf8String) : Prop :=
  match valueFromSlice content.bytes with
  | some value => ∃ found, crush crusher query bias content = found.pythonSafeJsonDumps ∧
      Lossless value found
  | none => crush crusher query bias content = content

/-- What a crusher comes to in a document is spared. -/
def ContentSpared (content : Utf8String) : Prop :=
  ∀ value, valueFromSlice content.bytes = some value →
    Spared crusher query bias maxProcessDepth value

section

variable {crusher query bias} (hlossless : crusher.config.losslessOnly = true)
  (hcompaction : crusher.compaction = some ⟨compactConfig crusher.config, ⟨false⟩⟩)
include hlossless hcompaction

variable {content : Utf8String}

theorem crushesLosslessly_of_spared (hspared : ContentSpared crusher query bias content) :
    CrushesLosslessly crusher query bias content := by
  rw [CrushesLosslessly, crush]
  cases hvalue : valueFromSlice content.bytes with
  | some value =>
      refine ⟨_, rfl, ?_⟩
      rw [processValue_of_spared hlossless (hspared value hvalue)]
      exact lossless_tabulated hlossless hcompaction _ _
  | none => rfl

theorem spared_of_crushesLosslessly (hcrushes : CrushesLosslessly crusher query bias content) :
    ContentSpared crusher query bias content := by
  intro value hvalue
  rw [CrushesLosslessly, hvalue] at hcrushes
  obtain ⟨found, hwritten, hfound⟩ := hcrushes
  have hwell := wellFormed_valueFromSlice hvalue
  refine spared_of_agrees hlossless hcompaction hwell (.inl ?_)
  rw [crush, hvalue] at hwritten
  rwa [Value.toJson_injective (wellFormed_processValue hlossless hcompaction hwell)
    (hfound.wellFormed hwell) hwritten]

end

end

/-- The tools as they are on the text `a`. -/
def letterTools : TextTools where
  toLowercase := id
  md5 := fun _ => [0x0C, 0xC1, 0x75, 0xB9, 0xC0, 0xF1, 0xB6, 0xA8, 0x31, 0xC3, 0x99, 0xE2, 0x69,
    0x77, 0x26, 0x61]
  zlibCompressedLen := fun _ => 9

/-- The defaults with `lossless_only`. -/
def losslessCrusher : SmartCrusher ℚ :=
  SmartCrusher.new { SmartCrusherConfig.default with losslessOnly := true } letterTools
    fun _ _ _ => none

def letters (count : ℕ) : Value := .array (List.replicate count (.string (constant "a")))

end Legroom.SmartCrusher
