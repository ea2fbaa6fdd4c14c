import Legroom.SmartCrusher.Compactor
import Mathlib.Data.List.Dedup

/-!
# What a table holds

A table holds the array it was made from: every item has a row, and every field of
the item is in a cell of that row, or its own fields are.
-/

namespace Legroom.SmartCrusher

open Json Utf8

/-- A value as it is, or as the text of its JSON. -/
def ReadsAs (value found : Value) : Prop :=
  value = found ∨ ∃ text, value = .string text ∧ tryParseJsonContainer text = some found

mutual

def CellHolds : CellValue → Value → Prop
  | .scalar found, value => ReadsAs value found
  | .nested sub, value => ∃ items, ReadsAs value (.array items) ∧ Holds sub items
  | _, _ => False

/-- A cell of the column with a name holds a value. -/
def ColumnHolds : List FieldSpec → List CellValue → Utf8String → Value → Prop
  | field :: schema, cell :: row, name, value =>
      field.name = name ∧ CellHolds cell value ∨ ColumnHolds schema row name value
  | _, _, _, _ => False

/-- Every field of an item is in a column, or every field of it in one of its own. -/
def RowHolds (schema : List FieldSpec) : List CellValue → Value → Prop
  | row, item => ∀ name value, item.get name = some value →
      ColumnHolds schema row name value ∨
        ∃ fields, ReadsAs value (.object fields) ∧ ∀ inner found,
          (Value.object fields).get inner = some found → ∃ field, (field, CellValue.scalar found) ∈
            schema.zip row ∧ field.name = name ++ constant "." ++ inner

def RowsHold (schema : List FieldSpec) : List (List CellValue) → List Value → Prop
  | [], [] => True
  | row :: rows, item :: items => RowHolds schema row item ∧ RowsHold schema rows items
  | _, _ => False

/-- The rows of a bucket, or its items in a column of their own. -/
def BucketHolds : Bucket → List Value → Prop
  | .mk _ schema rows, items =>
      RowsHold schema rows items ∨ rows = items.map fun item => [.scalar item]

def BucketsHold : List Bucket → List (List Value) → Prop
  | [], [] => True
  | bucket :: buckets, group :: groups => BucketHolds bucket group ∧ BucketsHold buckets groups
  | _, _ => False

def Holds : Compaction → List Value → Prop
  | .table schema rows _, items => RowsHold schema rows items
  | .buckets _ buckets _, items =>
      ∃ groups, groups.flatten.Perm items ∧ BucketsHold buckets groups
  | .untouched value, items => value = .array items
  | .opaqueRef _ _ _, _ => False

end

mutual

/-- No text was taken out of a cell. -/
def CellUnmarked : CellValue → Prop
  | .opaqueRef _ _ _ => False
  | .nested sub => Unmarked sub
  | .scalar _ => True
  | .missing => True

def RowUnmarked : List CellValue → Prop
  | [] => True
  | cell :: row => CellUnmarked cell ∧ RowUnmarked row

def RowsUnmarked : List (List CellValue) → Prop
  | [] => True
  | row :: rows => RowUnmarked row ∧ RowsUnmarked rows

def BucketUnmarked : Bucket → Prop
  | .mk _ _ rows => RowsUnmarked rows

def BucketsUnmarked : List Bucket → Prop
  | [] => True
  | bucket :: buckets => BucketUnmarked bucket ∧ BucketsUnmarked buckets

def Unmarked : Compaction → Prop
  | .table _ rows _ => RowsUnmarked rows
  | .buckets _ buckets _ => BucketsUnmarked buckets
  | .untouched _ => True
  | .opaqueRef _ _ _ => False

end

variable {row : List CellValue}

theorem rowUnmarked_iff : RowUnmarked row ↔ ∀ cell ∈ row, CellUnmarked cell := by
  induction row with
  | nil => simp [RowUnmarked]
  | cons cell row ih => simp [RowUnmarked, ih]

variable {rows : List (List CellValue)}

theorem rowsUnmarked_iff : RowsUnmarked rows ↔ ∀ row ∈ rows, RowUnmarked row := by
  induction rows with
  | nil => simp [RowsUnmarked]
  | cons row rows ih => simp [RowsUnmarked, ih]

theorem bucketsUnmarked_iff {buckets : List Bucket} :
    BucketsUnmarked buckets ↔ ∀ bucket ∈ buckets, BucketUnmarked bucket := by
  induction buckets with
  | nil => simp [BucketsUnmarked]
  | cons bucket buckets ih => simp [BucketsUnmarked, ih]

variable {schema : List FieldSpec} {name : Utf8String}

theorem columnHolds_iff {value : Value} :
    ColumnHolds schema row name value ↔
      ∃ entry ∈ schema.zip row, entry.1.name = name ∧ CellHolds entry.2 value := by
  induction schema generalizing row with
  | nil => simp [ColumnHolds]
  | cons field schema ih =>
      cases row with
      | nil => simp [ColumnHolds]
      | cons cell row => simp [ColumnHolds, ih]

theorem rowsHold_iff {items : List Value} :
    RowsHold schema rows items ↔ List.Forall₂ (RowHolds schema) rows items := by
  induction rows generalizing items with
  | nil => cases items <;> simp [RowsHold]
  | cons row rows ih => cases items <;> simp [RowsHold, ih]

/-! ## Flattened columns -/

/-- Entries of two lists that are cut into pieces of the same lengths. -/
theorem mem_zip_flatten {α β : Type*} {lefts : List (List α)} {rights : List (List β)}
    (hlengths : List.Forall₂ (fun left right => left.length = right.length) lefts rights)
    {index : ℕ} {left : List α} {right : List β} (hleft : lefts[index]? = some left)
    (hright : rights[index]? = some right) {entry : α × β} (hentry : entry ∈ left.zip right) :
    entry ∈ lefts.flatten.zip rights.flatten := by
  induction hlengths generalizing index with
  | nil => cases hleft
  | cons hlength hlengths ih =>
      rw [List.flatten_cons, List.flatten_cons, List.zip_append hlength]
      cases index with
      | zero =>
          cases hleft
          cases hright
          exact List.mem_append_left _ hentry
      | succ index => exact List.mem_append_right _ (ih hleft hright)

variable {cells : List (Option CellValue)} {names : List Utf8String}

theorem uniformObjectKeys_spec {canonical : Option (List Utf8String)}
    (huniform : uniformObjectKeys cells canonical = some names) :
    (canonical = none ∨ canonical = some names) ∧ ∀ cell ∈ cells, cell = some .missing ∨
      ∃ fields, cell = some (.scalar (.object fields)) ∧ fields.map Prod.fst = names := by
  induction cells generalizing canonical with
  | nil =>
      rw [uniformObjectKeys] at huniform
      exact ⟨.inr huniform, fun cell hcell => absurd hcell List.not_mem_nil⟩
  | cons cell cells ih =>
      rw [uniformObjectKeys.eq_def] at huniform
      split at huniform
      · rename_i heq
        cases heq
      · rename_i heq
        cases heq
        obtain ⟨hcanonical, hcells⟩ := ih huniform
        exact ⟨hcanonical, List.forall_mem_cons.mpr ⟨.inl rfl, hcells⟩⟩
      · rename_i fields _ heq
        cases heq
        obtain ⟨hcanonical, hcells⟩ := ih huniform
        refine ⟨.inl rfl, List.forall_mem_cons.mpr ⟨.inr ⟨fields, rfl, ?_⟩, hcells⟩⟩
        exact Option.some.inj (hcanonical.resolve_left (Option.some_ne_none _))
      · rename_i fields found _ heq
        cases heq
        split_ifs at huniform with hnames
        obtain ⟨hcanonical, hcells⟩ := ih huniform
        have hfound := hcanonical.resolve_left (Option.some_ne_none _)
        refine ⟨.inr hfound, List.forall_mem_cons.mpr ⟨.inr ⟨fields, rfl, ?_⟩, hcells⟩⟩
        rw [← hnames, Option.some.inj hfound]
      · cases huniform

variable {maxFlattenInnerKeys : ℕ}

theorem flattenedKeys_spec {spec : FieldSpec}
    (hnames : flattenedKeys maxFlattenInnerKeys spec cells = some names) :
    ∀ cell ∈ cells, cell = some .missing ∨
      ∃ fields, cell = some (.scalar (.object fields)) ∧ fields.map Prod.fst = names := by
  rw [flattenedKeys] at hnames
  split_ifs at hnames
  exact (uniformObjectKeys_spec (Option.filter_eq_some_iff.mp hnames).1).2

theorem length_expand (spec : FieldSpec) (cells : List (Option CellValue))
    (names : Option (List Utf8String)) (cell : CellValue) :
    (expandSpec spec cells names).length = (expandCell names cell).length := by
  cases names <;> simp [expandSpec, expandCell]

theorem zip_expand (spec : FieldSpec) (cells : List (Option CellValue)) (names : List Utf8String)
    (cell : CellValue) (hname : name ∈ names) :
    ∃ field, (field, innerCell name cell) ∈
      (expandSpec spec cells (some names)).zip (expandCell (some names) cell) ∧
        field.name = spec.name ++ constant "." ++ name := by
  rw [expandSpec, expandCell, List.zip_map']
  exact ⟨_, List.mem_map_of_mem hname, rfl⟩

variable {specs : List FieldSpec}

/-- A cell is still in the flattened row, or it is missing, or its fields are in columns
of their own. -/
theorem entry_flatten (hrow : row ∈ rows) (hlength : row.length = specs.length)
    {entry : FieldSpec × CellValue} (hentry : entry ∈ specs.zip row)
    {flattened : List (FieldSpec × CellValue)}
    (hflattened : flattened = (flattenUniformNested maxFlattenInnerKeys specs rows).1.zip
      (List.zipWith expandCell (specs.mapIdx fun index spec =>
        flattenedKeys maxFlattenInnerKeys spec (column rows index)) row).flatten) :
    entry ∈ flattened ∨ entry.2 = .missing ∨ ∃ fields, entry.2 = .scalar (.object fields) ∧
      ∀ inner found, (Value.object fields).get inner = some found →
        ∃ field, (field, CellValue.scalar found) ∈ flattened ∧
          field.name = entry.1.name ++ constant "." ++ inner := by
  obtain ⟨index, hindex⟩ := List.mem_iff_getElem?.mp hentry
  obtain ⟨hspec, hvalue⟩ := List.getElem?_zip_eq_some.mp hindex
  have hlengths : List.Forall₂ (fun left right => left.length = right.length)
      (specs.mapIdx fun index spec => expandSpec spec (column rows index)
        (flattenedKeys maxFlattenInnerKeys spec (column rows index)))
      (List.zipWith expandCell (specs.mapIdx fun index spec =>
        flattenedKeys maxFlattenInnerKeys spec (column rows index)) row) := by
    refine List.forall₂_iff_get.mpr ⟨by simp [hlength], fun position hleft hright => ?_⟩
    simp only [List.get_eq_getElem, List.getElem_mapIdx, List.getElem_zipWith]
    exact length_expand _ _ _ _
  have hleft : (specs.mapIdx fun index spec => expandSpec spec (column rows index)
      (flattenedKeys maxFlattenInnerKeys spec (column rows index)))[index]? =
        some (expandSpec entry.1 (column rows index)
          (flattenedKeys maxFlattenInnerKeys entry.1 (column rows index))) := by
    rw [List.getElem?_mapIdx, hspec]
    rfl
  have hright : (List.zipWith expandCell (specs.mapIdx fun index spec =>
      flattenedKeys maxFlattenInnerKeys spec (column rows index)) row)[index]? =
        some (expandCell (flattenedKeys maxFlattenInnerKeys entry.1 (column rows index))
          entry.2) := by
    rw [List.getElem?_zipWith, List.getElem?_mapIdx, hspec, hvalue]
    rfl
  rw [hflattened]
  cases hnames : flattenedKeys maxFlattenInnerKeys entry.1 (column rows index) with
  | none =>
      rw [hnames] at hleft hright
      exact .inl (mem_zip_flatten hlengths hleft hright List.mem_cons_self)
  | some names =>
      have hseen : some entry.2 ∈ column rows index :=
        List.mem_map.mpr ⟨row, hrow, hvalue⟩
      rw [hnames] at hleft hright
      rcases flattenedKeys_spec hnames _ hseen with hmissing | ⟨fields, hobject, hfields⟩
      · exact .inr (.inl (Option.some.inj hmissing))
      · rw [Option.some.inj hobject] at hright
        refine .inr (.inr ⟨fields, Option.some.inj hobject, fun inner found hfound => ?_⟩)
        have hinner : inner ∈ names := by
          obtain ⟨field, hfield, -⟩ := Option.map_eq_some_iff.mp hfound
          have hkey : field.1 = inner := by simpa using List.find?_some hfield
          rw [← hfields, ← hkey]
          exact List.mem_map_of_mem (List.mem_of_find?_eq_some hfield)
        obtain ⟨field, hfield, hdotted⟩ := zip_expand entry.1 (column rows index) names
          (.scalar (.object fields)) hinner
        have hscalar : innerCell inner (.scalar (.object fields)) = .scalar found := by
          rw [innerCell, hfound]
        rw [hscalar] at hfield
        exact ⟨field, mem_zip_flatten hlengths hleft hright hfield, hdotted⟩

/-- Flattening keeps what a row holds. -/
theorem rowHolds_flatten (hrow : row ∈ rows) (hlength : row.length = specs.length) {item : Value}
    (hholds : ∀ name value, item.get name = some value → ColumnHolds specs row name value) :
    RowHolds (flattenUniformNested maxFlattenInnerKeys specs rows).1
      ((List.zipWith expandCell (specs.mapIdx fun index spec =>
        flattenedKeys maxFlattenInnerKeys spec (column rows index)) row).flatten) item := by
  rw [RowHolds]
  intro name value hget
  obtain ⟨entry, hentry, hname, hcell⟩ := columnHolds_iff.mp (hholds name value hget)
  rcases entry_flatten hrow hlength hentry rfl with hkept | hmissing | ⟨fields, hobject, hfields⟩
  · exact .inl (columnHolds_iff.mpr ⟨entry, hkept, hname, hcell⟩)
  · rw [hmissing] at hcell
    exact absurd hcell (by simp [CellHolds])
  · rw [hobject] at hcell
    refine .inr ⟨fields, by simpa [CellHolds] using hcell, fun inner found hfound => ?_⟩
    obtain ⟨field, hfield, hdotted⟩ := hfields inner found hfound
    exact ⟨field, hfield, by rw [hdotted, hname]⟩

/-! ## Rows -/

section

variable {F : Type*} [Float64 F] (config : CompactConfig F)
variable {inner : List Value → Compaction}

theorem cellHolds_cellFromValue (hmarkers : config.classify.emitOpaqueMarkers = false)
    (hinner : ∀ items, Holds (inner items) items) (value : Value) :
    CellHolds (cellFromValue config inner value) value := by
  have hscalar : CellHolds (.scalar value) value := by
    rw [CellHolds]
    exact .inl rfl
  have harray : ∀ items, ReadsAs value (.array items) → CellHolds
      (if isTabular items then .nested (inner items) else .scalar (.array items)) value := by
    intro items hreads
    split_ifs
    · rw [CellHolds]
      exact ⟨items, hreads, hinner items⟩
    · rwa [CellHolds]
  cases value with
  | array items => exact harray items (.inl rfl)
  | string text =>
      have hclass : classifyCell config.classify (.string text) =
          classifyString config.classify text := rfl
      rw [cellFromValue.eq_def, hclass, classifyString.eq_def]
      cases hparse : tryParseJsonContainer text with
      | none =>
          simp only [hmarkers, or_true, if_true]
          exact hscalar
      | some parsed =>
          have hreads : ReadsAs (.string text) parsed := .inr ⟨text, rfl, hparse⟩
          cases parsed with
          | array items => exact harray items hreads
          | _ =>
              rw [CellHolds]
              exact hreads
  | _ => exact hscalar

variable {items : List Value}
variable {name : Utf8String}

theorem mem_computeKeyFreqs {item value : Value} (hitem : item ∈ items)
    (hget : item.get name = some value) : name ∈ orderedKeys (computeKeyFreqs items) := by
  have hname : name ∈ fieldNames item := by
    cases item with
    | object fields =>
        obtain ⟨field, hfield, -⟩ := Option.map_eq_some_iff.mp hget
        have hkey : field.1 = name := by simpa using List.find?_some hfield
        rw [fieldNames, ← hkey]
        exact List.mem_map_of_mem (List.mem_of_find?_eq_some hfield)
    | _ => cases hget
  refine List.mem_map.mpr ⟨(name, items.countP (hasField name)), ?_, rfl⟩
  rw [List.mem_insertionSort, computeKeyFreqs]
  refine List.mem_map.mpr ⟨name, ?_, rfl⟩
  rw [List.mem_insertionSort, List.mem_dedup]
  exact List.mem_flatMap.mpr ⟨item, hitem, hname⟩

theorem columnHolds_buildRow (hmarkers : config.classify.emitOpaqueMarkers = false)
    (hinner : ∀ items, Holds (inner items) items) {item : Value} (hitem : item ∈ items)
    (spec : Utf8String → FieldSpec) (hspec : ∀ name, (spec name).name = name) {value : Value}
    (hget : item.get name = some value) :
    ColumnHolds ((orderedKeys (computeKeyFreqs items)).map spec)
      (buildRow config inner (orderedKeys (computeKeyFreqs items)) item) name value := by
  rw [columnHolds_iff, buildRow, List.zip_map']
  refine ⟨_, List.mem_map_of_mem (mem_computeKeyFreqs hitem hget), hspec name, ?_⟩
  simp only [hget]
  exact cellHolds_cellFromValue config hmarkers hinner value

theorem holds_buildHomogeneousTable (hmarkers : config.classify.emitOpaqueMarkers = false)
    (hinner : ∀ items, Holds (inner items) items) (items : List Value) :
    Holds (buildHomogeneousTable config inner items (computeKeyFreqs items)) items := by
  rw [buildHomogeneousTable, flattenUniformNested, Holds, rowsHold_iff, List.map_map,
    List.forall₂_map_left_iff, List.forall₂_same]
  intro item hitem
  refine rowHolds_flatten (List.mem_map_of_mem hitem) (by simp [buildRow]) ?_
  intro name value hget
  exact columnHolds_buildRow config hmarkers hinner hitem _ (fun _ => rfl) hget

/-! ## Groups -/

/-- Grouping a list by distinct keys takes its items in another order. -/
theorem perm_groups {α κ : Type*} [DecidableEq κ] (keyOf : α → κ) {keys : List κ}
    (hkeys : keys.Nodup) {items : List α} (hitems : ∀ item ∈ items, keyOf item ∈ keys) :
    (keys.map fun key => items.filter fun item => keyOf item = key).flatten.Perm items := by
  induction keys generalizing items with
  | nil =>
      have hnil : items = [] := List.eq_nil_iff_forall_not_mem.mpr fun item hitem =>
        List.not_mem_nil (hitems item hitem)
      rw [hnil]
      exact List.Perm.nil
  | cons key keys ih =>
      obtain ⟨hfresh, hkeys⟩ := List.nodup_cons.mp hkeys
      have hothers : (keys.map fun other => items.filter fun item => keyOf item = other) =
          keys.map fun other => (items.filter fun item => ¬keyOf item = key).filter
            fun item => keyOf item = other := by
        refine List.map_congr_left fun other hother => ?_
        rw [List.filter_filter]
        refine List.filter_congr fun item hitem => ?_
        by_cases hkey : keyOf item = other
        · have hne : keyOf item ≠ key := by
            rintro rfl
            exact hfresh (hkey ▸ hother)
          simp [hkey, hkey ▸ hne]
        · simp [hkey]
      have hrest : ∀ item ∈ items.filter (fun item => ¬keyOf item = key), keyOf item ∈ keys := by
        intro item hitem
        obtain ⟨hmem, hne⟩ := List.mem_filter.mp hitem
        exact (List.mem_cons.mp (hitems item hmem)).resolve_left (of_decide_eq_true hne)
      rw [List.map_cons, List.flatten_cons, hothers]
      refine ((ih hkeys hrest).append_left _).trans ?_
      have hsplit := List.filter_append_perm (fun item => decide (keyOf item = key)) items
      simpa using hsplit

variable {compaction : Compaction}

theorem bucketHolds_bucketOf (key : Utf8String) (hholds : Holds compaction items) :
    BucketHolds (bucketOf key items compaction) items := by
  cases compaction with
  | table schema rows originalCount =>
      rw [bucketOf, BucketHolds]
      rw [Holds] at hholds
      exact .inl hholds
  | _ =>
      rw [bucketOf.eq_def, BucketHolds]
      exact .inr rfl

theorem bucketsHold_iff {buckets : List Bucket} {groups : List (List Value)} :
    BucketsHold buckets groups ↔ List.Forall₂ BucketHolds buckets groups := by
  induction buckets generalizing groups with
  | nil => cases groups <;> simp [BucketsHold]
  | cons bucket buckets ih => cases groups <;> simp [BucketsHold, ih]

/-- Grouping the items takes them in another order. -/
theorem perm_groupItems (items : List Value) (discriminator : Utf8String) :
    ((groupKeys items discriminator).map (groupItems items discriminator)).flatten.Perm
      items := by
  refine perm_groups (bucketKey discriminator) ?_ fun item hitem => ?_
  · exact (List.perm_insertionSort _ _).nodup_iff.mpr (List.nodup_dedup _)
  · rw [groupKeys, List.mem_insertionSort, List.mem_dedup]
    exact List.mem_map_of_mem hitem

theorem holds_bucketBy (hinner : ∀ items, Holds (inner items) items) (items : List Value)
    (discriminator : Utf8String) : Holds (bucketBy inner items discriminator) items := by
  rw [bucketBy, Holds]
  refine ⟨(groupKeys items discriminator).map (groupItems items discriminator),
    perm_groupItems items discriminator, ?_⟩
  rw [bucketsHold_iff, List.forall₂_map_left_iff, List.forall₂_map_right_iff, List.forall₂_same]
  intro key hkey
  exact bucketHolds_bucketOf key (hinner _)

/-- Without markers a compaction holds the array. -/
theorem compactInner_holds (hmarkers : config.classify.emitOpaqueMarkers = false) (fuel : ℕ)
    (items : List Value) : Holds (compactInner config fuel items) items := by
  induction fuel generalizing items with
  | zero => rw [compactInner, Holds]
  | succ fuel ih =>
      rw [compactInner]
      split_ifs
      · rw [Holds]
      · dsimp only
        split
        · exact holds_bucketBy ih items _
        · exact holds_buildHomogeneousTable config hmarkers ih items

/-! ## Markers -/

theorem cellUnmarked_cellFromValue (hmarkers : config.classify.emitOpaqueMarkers = false)
    (hinner : ∀ items, Unmarked (inner items)) (value : Value) :
    CellUnmarked (cellFromValue config inner value) := by
  have harray : ∀ items found, CellUnmarked
      (if isTabular items then .nested (inner items) else .scalar found) := by
    intro items found
    split_ifs
    · exact hinner items
    · trivial
  cases value with
  | array items => exact harray items _
  | string text =>
      have hclass : classifyCell config.classify (.string text) =
          classifyString config.classify text := rfl
      rw [cellFromValue.eq_def, hclass, classifyString.eq_def]
      cases hparse : tryParseJsonContainer text with
      | none =>
          simp only [hmarkers, or_true, if_true]
          trivial
      | some parsed =>
          cases parsed with
          | array items => exact harray items _
          | _ => trivial
  | _ => trivial

theorem cellUnmarked_expandCell {names : Option (List Utf8String)} {cell found : CellValue}
    (hcell : CellUnmarked cell) (hfound : found ∈ expandCell names cell) :
    CellUnmarked found := by
  cases names with
  | none => rwa [List.mem_singleton.mp hfound]
  | some names =>
      obtain ⟨name, -, rfl⟩ := List.mem_map.mp hfound
      rw [innerCell.eq_def]
      split
      · split <;> trivial
      · trivial

theorem rowUnmarked_expand {expansions : List (Option (List Utf8String))}
    {row : List CellValue} (hrow : ∀ cell ∈ row, CellUnmarked cell) :
    ∀ found ∈ (List.zipWith expandCell expansions row).flatten, CellUnmarked found := by
  induction row generalizing expansions with
  | nil => simp
  | cons cell row ih =>
      obtain ⟨hcell, hrow⟩ := List.forall_mem_cons.mp hrow
      cases expansions with
      | nil => simp
      | cons names expansions =>
          rw [List.zipWith_cons_cons, List.flatten_cons]
          intro found hfound
          rcases List.mem_append.mp hfound with hfound | hfound
          · exact cellUnmarked_expandCell hcell hfound
          · exact ih hrow found hfound

theorem unmarked_buildHomogeneousTable (hmarkers : config.classify.emitOpaqueMarkers = false)
    (hinner : ∀ items, Unmarked (inner items)) (items : List Value)
    (keyFreqs : List (Utf8String × ℕ)) :
    Unmarked (buildHomogeneousTable config inner items keyFreqs) := by
  rw [buildHomogeneousTable, flattenUniformNested, Unmarked, rowsUnmarked_iff, List.map_map]
  intro row hrow
  obtain ⟨item, hitem, rfl⟩ := List.mem_map.mp hrow
  refine rowUnmarked_iff.mpr (rowUnmarked_expand fun cell hcell => ?_)
  obtain ⟨name, -, rfl⟩ := List.mem_map.mp hcell
  split
  · exact cellUnmarked_cellFromValue config hmarkers hinner _
  · trivial

theorem bucketUnmarked_bucketOf (key : Utf8String) (hunmarked : Unmarked compaction) :
    BucketUnmarked (bucketOf key items compaction) := by
  have hsingle : RowsUnmarked (items.map fun item => [.scalar item]) := by
    rw [rowsUnmarked_iff]
    intro row hrow
    obtain ⟨item, -, rfl⟩ := List.mem_map.mp hrow
    exact ⟨trivial, trivial⟩
  cases compaction with
  | table schema rows originalCount => exact hunmarked
  | _ => exact hsingle

/-- Without markers nothing is taken out. -/
theorem compactInner_unmarked (hmarkers : config.classify.emitOpaqueMarkers = false) (fuel : ℕ)
    (items : List Value) : Unmarked (compactInner config fuel items) := by
  induction fuel generalizing items with
  | zero => trivial
  | succ fuel ih =>
      rw [compactInner]
      split_ifs
      · trivial
      · dsimp only
        split
        · rw [bucketBy, Unmarked, bucketsUnmarked_iff]
          intro bucket hbucket
          obtain ⟨key, -, rfl⟩ := List.mem_map.mp hbucket
          exact bucketUnmarked_bucketOf key (ih _)
        · exact unmarked_buildHomogeneousTable config hmarkers ih items _

end

end Legroom.SmartCrusher
