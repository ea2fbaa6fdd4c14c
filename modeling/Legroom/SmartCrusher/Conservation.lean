import Legroom.SmartCrusher.CompactorLoops

/-!
# What a compaction keeps

In a compacted array every row has a cell for each column, and the cell is that of the
column's field.  The rows of a table are those of the items, one by one and in order; the
buckets share the items out.  This holds in the tables inside of cells as well.
-/

namespace Legroom.SmartCrusher

open Json Utf8

/-- A cell that stands for a field of a field, which the item may lack. -/
def InnerShown (inner : Utf8String) (cell : CellValue) (found : Option Value) : Prop :=
  found = none ∧ cell = .missing ∨
    ∃ value fields, found = some value ∧ ReadsAs value (.object fields) ∧
      cell = innerCell inner (.scalar (.object fields))

/-- The fields of an object are in columns of their own. -/
def InnersConserved (schema : List FieldSpec) (row : List CellValue) (name : Utf8String)
    (value : Value) : Prop :=
  ∃ fields, ReadsAs value (.object fields) ∧ ∀ inner found,
    (Value.object fields).get inner = some found → ∃ field, (field, CellValue.scalar found) ∈
      schema.zip row ∧ field.name = name ++ constant "." ++ inner

def Bucket.rowCount : Bucket → ℕ
  | .mk _ _ rows => rows.length

def Compaction.rowCount : Compaction → ℕ
  | .table _ rows _ => rows.length
  | .buckets _ parts _ => (parts.map Bucket.rowCount).sum
  | .opaqueRef _ _ _ => 0
  | .untouched _ => 0

mutual

/-- A cell that stands for a field, which the item may lack. -/
def CellConserves : CellValue → Option Value → Prop
  | .missing, found => found = none
  | .scalar shown, found => ∃ value, found = some value ∧ ReadsAs value shown
  | .nested sub, found => ∃ value items, found = some value ∧ ReadsAs value (.array items) ∧
      Conserves sub items
  | .opaqueRef ccrHash byteSize _, found => ∃ text, found = some (.string text) ∧
      ccrHash = hashOpaque text ∧ byteSize = text.bytes.length

/-- Every cell is that of its column. -/
def ColumnsConserve : List FieldSpec → List CellValue → Value → Prop
  | [], [], _ => True
  | field :: schema, cell :: row, item =>
      (CellConserves cell (item.get field.name) ∨ ∃ name inner,
        field.name = name ++ constant "." ++ inner ∧ InnerShown inner cell (item.get name)) ∧
      ColumnsConserve schema row item
  | _, _, _ => False

/-- A cell of the column with a name stands for the value. -/
def FieldConserved : List FieldSpec → List CellValue → Utf8String → Value → Prop
  | field :: schema, cell :: row, name, value =>
      field.name = name ∧ CellConserves cell (some value) ∨ FieldConserved schema row name value
  | _, _, _, _ => False

/-- The cells of a row are as many as the columns, each that of its column, and every
field of the item is among them, or its own fields are. -/
def RowsConserve (schema : List FieldSpec) : List (List CellValue) → List Value → Prop
  | [], [] => True
  | row :: rows, item :: items =>
      (row.length = schema.length ∧ ColumnsConserve schema row item ∧
        ∀ name value, item.get name = some value → FieldConserved schema row name value ∨
          InnersConserved schema row name value) ∧
      RowsConserve schema rows items
  | _, _ => False

/-- The rows of a bucket, or its items as they are in one column. -/
def BucketConserves : Bucket → List Value → Prop
  | .mk _ schema rows, items => RowsConserve schema rows items ∨
      schema = [⟨constant "value", .json, false⟩] ∧ rows = items.map fun item => [.scalar item]

def BucketsConserve : List Bucket → List (List Value) → Prop
  | [], [] => True
  | bucket :: buckets, group :: groups =>
      BucketConserves bucket group ∧ BucketsConserve buckets groups
  | _, _ => False

/-- Every item has one row.  Buckets share the items out, in their order. -/
def Conserves : Compaction → List Value → Prop
  | .table schema rows originalCount, items =>
      originalCount = items.length ∧ RowsConserve schema rows items
  | .buckets _ buckets originalCount, items =>
      originalCount = items.length ∧ (buckets.map Bucket.rowCount).sum = originalCount ∧
        ∃ groups, groups.flatten.Perm items ∧ (∀ group ∈ groups, group.Sublist items) ∧
          BucketsConserve buckets groups
  | .untouched value, items => value = .array items
  | .opaqueRef _ _ _, _ => False

end

def RowConserves (schema : List FieldSpec) (row : List CellValue) (item : Value) : Prop :=
  row.length = schema.length ∧ ColumnsConserve schema row item ∧
    ∀ name value, item.get name = some value → FieldConserved schema row name value ∨
      InnersConserved schema row name value

variable {schema : List FieldSpec} {row : List CellValue} {item : Value}

theorem columnsConserve_iff :
    ColumnsConserve schema row item ↔ row.length = schema.length ∧
      ∀ entry ∈ schema.zip row, CellConserves entry.2 (item.get entry.1.name) ∨
        ∃ name inner, entry.1.name = name ++ constant "." ++ inner ∧
          InnerShown inner entry.2 (item.get name) := by
  induction schema generalizing row with
  | nil => cases row <;> simp [ColumnsConserve]
  | cons field schema ih =>
      cases row with
      | nil => simp [ColumnsConserve]
      | cons cell row =>
          rw [ColumnsConserve, ih, List.zip_cons_cons, List.forall_mem_cons, List.length_cons,
            List.length_cons, Nat.succ_inj]
          exact and_left_comm

theorem fieldConserved_iff {name : Utf8String} {value : Value} :
    FieldConserved schema row name value ↔
      ∃ entry ∈ schema.zip row, entry.1.name = name ∧ CellConserves entry.2 (some value) := by
  induction schema generalizing row with
  | nil => simp [FieldConserved]
  | cons field schema ih =>
      cases row with
      | nil => simp [FieldConserved]
      | cons cell row => simp [FieldConserved, ih]

variable {rows : List (List CellValue)} {items : List Value}

theorem rowsConserve_iff :
    RowsConserve schema rows items ↔ List.Forall₂ (RowConserves schema) rows items := by
  induction rows generalizing items with
  | nil => cases items <;> simp [RowsConserve]
  | cons row rows ih => cases items <;> simp [RowsConserve, RowConserves, ih]

theorem bucketsConserve_iff {buckets : List Bucket} {groups : List (List Value)} :
    BucketsConserve buckets groups ↔ List.Forall₂ BucketConserves buckets groups := by
  induction buckets generalizing groups with
  | nil => cases groups <;> simp [BucketsConserve]
  | cons bucket buckets ih => cases groups <;> simp [BucketsConserve, ih]

/-! ## Rows -/

/-- Entries of two lists that are cut into pieces of the same lengths. -/
theorem forall_zip_flatten {α β : Type*} {holds : α × β → Prop} {lefts : List (List α)}
    {rights : List (List β)}
    (hpieces : List.Forall₂ (fun left right => left.length = right.length ∧
      ∀ entry ∈ left.zip right, holds entry) lefts rights) :
    lefts.flatten.length = rights.flatten.length ∧
      ∀ entry ∈ lefts.flatten.zip rights.flatten, holds entry := by
  induction hpieces with
  | nil => exact ⟨rfl, fun entry hentry => absurd hentry List.not_mem_nil⟩
  | cons hpiece hpieces ih =>
      rw [List.flatten_cons, List.flatten_cons, List.zip_append hpiece.1, List.length_append,
        List.length_append, hpiece.1, ih.1]
      refine ⟨rfl, fun entry hentry => ?_⟩
      rcases List.mem_append.mp hentry with hfirst | hrest
      · exact hpiece.2 entry hfirst
      · exact ih.2 entry hrest

/-- What a flattened column shows. -/
theorem columnConserved_expand {spec : FieldSpec} {cells : List (Option CellValue)}
    {names : Option (List Utf8String)} {cell : CellValue}
    (hcell : CellConserves cell (item.get spec.name))
    (hshape : names.isSome → cell = .missing ∨ ∃ fields, cell = .scalar (.object fields)) :
    ∀ entry ∈ (expandSpec spec cells names).zip (expandCell names cell),
      CellConserves entry.2 (item.get entry.1.name) ∨ ∃ name inner,
        entry.1.name = name ++ constant "." ++ inner ∧
          InnerShown inner entry.2 (item.get name) := by
  cases names with
  | none =>
      intro entry hentry
      rw [List.mem_singleton.mp hentry]
      exact .inl hcell
  | some names =>
      rw [expandSpec, expandCell, List.zip_map']
      intro entry hentry
      obtain ⟨inner, -, rfl⟩ := List.mem_map.mp hentry
      refine .inr ⟨spec.name, inner, rfl, ?_⟩
      rcases hshape rfl with rfl | ⟨fields, rfl⟩
      · rw [CellConserves] at hcell
        exact .inl ⟨hcell, rfl⟩
      · rw [CellConserves] at hcell
        obtain ⟨value, hvalue, hreads⟩ := hcell
        exact .inr ⟨value, fields, hvalue, hreads, rfl⟩

/-- Flattening keeps rows as long as their schema, and what they hold. -/
theorem rowConserves_flatten {maxFlattenInnerKeys : ℕ} {specs : List FieldSpec} (hrow : row ∈ rows)
    (hlength : row.length = specs.length)
    (hcells : ∀ entry ∈ specs.zip row, CellConserves entry.2 (item.get entry.1.name))
    (hnames : ∀ name value, item.get name = some value → ∃ spec ∈ specs, spec.name = name) :
    RowConserves (flattenUniformNested maxFlattenInnerKeys specs rows).1
      ((List.zipWith expandCell (specs.mapIdx fun index spec =>
        flattenedKeys maxFlattenInnerKeys spec (column rows index)) row).flatten) item := by
  have hpieces : List.Forall₂ (fun left right => left.length = right.length ∧
      ∀ entry ∈ left.zip right, CellConserves entry.2 (item.get entry.1.name) ∨
        ∃ name inner, entry.1.name = name ++ constant "." ++ inner ∧
          InnerShown inner entry.2 (item.get name))
      (specs.mapIdx fun index spec => expandSpec spec (column rows index)
        (flattenedKeys maxFlattenInnerKeys spec (column rows index)))
      (List.zipWith expandCell (specs.mapIdx fun index spec =>
        flattenedKeys maxFlattenInnerKeys spec (column rows index)) row) := by
    refine List.forall₂_iff_get.mpr ⟨by simp [hlength], fun index hleft hright => ?_⟩
    simp only [List.get_eq_getElem, List.getElem_mapIdx, List.getElem_zipWith]
    have hspec : index < specs.length := by simpa using hleft
    have hbound : index < row.length := hlength ▸ hspec
    refine ⟨length_expand _ _ _ _, columnConserved_expand (hcells (specs[index], row[index]) ?_)
      fun hsome => ?_⟩
    · exact List.mem_iff_getElem?.mpr ⟨index, List.getElem?_zip_eq_some.mpr
        ⟨List.getElem?_eq_getElem hspec, List.getElem?_eq_getElem hbound⟩⟩
    · obtain ⟨names, hnames⟩ := Option.isSome_iff_exists.mp hsome
      have hseen : some row[index] ∈ column rows index :=
        List.mem_map.mpr ⟨row, hrow, List.getElem?_eq_getElem hbound⟩
      rcases flattenedKeys_spec hnames _ hseen with hmissing | ⟨fields, hobject, -⟩
      · exact .inl (Option.some.inj hmissing)
      · exact .inr ⟨fields, Option.some.inj hobject⟩
  obtain ⟨hlengths, hentries⟩ := forall_zip_flatten hpieces
  rw [RowConserves]
  refine ⟨hlengths.symm, columnsConserve_iff.mpr ⟨hlengths.symm, hentries⟩, ?_⟩
  intro name value hget
  obtain ⟨spec, hspec, hname⟩ := hnames name value hget
  obtain ⟨index, hindex⟩ := List.mem_iff_getElem?.mp hspec
  have hbound : index < row.length := hlength ▸ (List.getElem?_eq_some_iff.mp hindex).1
  have hentry : (spec, row[index]) ∈ specs.zip row :=
    List.mem_iff_getElem?.mpr ⟨index, List.getElem?_zip_eq_some.mpr
      ⟨hindex, List.getElem?_eq_getElem hbound⟩⟩
  have hcell := hcells _ hentry
  rw [hname, hget] at hcell
  rcases entry_flatten hrow hlength hentry rfl with hkept | hmissing | ⟨fields, hobject, hfields⟩
  · exact .inl (fieldConserved_iff.mpr ⟨_, hkept, hname, hcell⟩)
  · rw [hmissing, CellConserves] at hcell
    exact absurd hcell (Option.some_ne_none value)
  · rw [hobject, CellConserves] at hcell
    obtain ⟨found, hfound, hreads⟩ := hcell
    cases hfound
    refine .inr ⟨fields, hreads, fun inner found hfound => ?_⟩
    obtain ⟨field, hfield, hdotted⟩ := hfields inner found hfound
    exact ⟨field, hfield, by rw [hdotted, hname]⟩

section

variable {F : Type*} [Float64 F] (config : CompactConfig F)
variable {inner : List Value → Compaction}

theorem cellConserves_cellFromValue (hinner : ∀ items, Conserves (inner items) items)
    (value : Value) : CellConserves (cellFromValue config inner value) (some value) := by
  have hscalar : ∀ found, ReadsAs value found → CellConserves (.scalar found) (some value) := by
    intro found hreads
    rw [CellConserves]
    exact ⟨value, rfl, hreads⟩
  have harray : ∀ items, ReadsAs value (.array items) → CellConserves
      (if isTabular items then .nested (inner items) else .scalar (.array items))
      (some value) := by
    intro items hreads
    split_ifs
    · rw [CellConserves]
      exact ⟨value, items, rfl, hreads, hinner items⟩
    · exact hscalar _ hreads
  cases value with
  | array items => exact harray items (.inl rfl)
  | string text =>
      have hclass : classifyCell config.classify (.string text) =
          classifyString config.classify text := rfl
      rw [cellFromValue.eq_def, hclass, classifyString.eq_def]
      cases hparse : tryParseJsonContainer text with
      | none =>
          dsimp only
          split_ifs
          · exact hscalar _ (.inl rfl)
          · rw [CellConserves]
            exact ⟨text, rfl, rfl, rfl⟩
      | some parsed =>
          have hreads : ReadsAs (.string text) parsed := .inr ⟨text, rfl, hparse⟩
          cases parsed with
          | array items => exact harray items hreads
          | _ => exact hscalar _ hreads
  | _ => exact hscalar _ (.inl rfl)

theorem conserves_buildHomogeneousTable (hinner : ∀ items, Conserves (inner items) items)
    (items : List Value) :
    Conserves (buildHomogeneousTable config inner items (computeKeyFreqs items)) items := by
  rw [buildHomogeneousTable, flattenUniformNested, Conserves, rowsConserve_iff, List.map_map,
    List.forall₂_map_left_iff, List.forall₂_same]
  refine ⟨rfl, fun item hitem => ?_⟩
  refine rowConserves_flatten (List.mem_map_of_mem hitem) (by simp [buildRow]) ?_ ?_
  · rw [buildRow, List.zip_map']
    intro entry hentry
    obtain ⟨name, -, rfl⟩ := List.mem_map.mp hentry
    dsimp only [fieldSpec]
    cases hget : item.get name with
    | none => rw [CellConserves]
    | some value => exact cellConserves_cellFromValue config hinner value
  · intro name value hget
    exact ⟨_, List.mem_map_of_mem (mem_computeKeyFreqs hitem hget), rfl⟩

/-! ## Buckets -/

variable {items : List Value}

theorem bucketConserves_bucketOf (key : Utf8String) {compaction : Compaction}
    (hconserves : Conserves compaction items) :
    BucketConserves (bucketOf key items compaction) items := by
  cases compaction with
  | table schema rows originalCount =>
      rw [bucketOf, BucketConserves]
      rw [Conserves] at hconserves
      exact .inl hconserves.2
  | _ =>
      rw [bucketOf.eq_def, BucketConserves]
      exact .inr ⟨rfl, rfl⟩

theorem rowCount_of_bucketConserves {bucket : Bucket} (hconserves : BucketConserves bucket items) :
    bucket.rowCount = items.length := by
  cases bucket with
  | mk key schema rows =>
      rw [BucketConserves, rowsConserve_iff] at hconserves
      rw [Bucket.rowCount]
      rcases hconserves with hrows | ⟨-, rfl⟩
      · exact hrows.length_eq
      · exact List.length_map _

theorem conserves_bucketBy (hinner : ∀ items, Conserves (inner items) items) (items : List Value)
    (discriminator : Utf8String) : Conserves (bucketBy inner items discriminator) items := by
  have hbuckets : ∀ key, BucketConserves (bucketOf key (groupItems items discriminator key)
      (inner (groupItems items discriminator key))) (groupItems items discriminator key) :=
    fun key => bucketConserves_bucketOf key (hinner _)
  have hperm := perm_groupItems items discriminator
  rw [bucketBy, Conserves]
  refine ⟨rfl, ?_, (groupKeys items discriminator).map (groupItems items discriminator), hperm,
    fun group hgroup => ?_, ?_⟩
  · calc
      _ = ((groupKeys items discriminator).map fun key =>
          (groupItems items discriminator key).length).sum := by
        rw [List.map_map]
        exact congrArg List.sum (List.map_congr_left fun key _ =>
          rowCount_of_bucketConserves (hbuckets key))
      _ = items.length := by
        rw [← hperm.length_eq, List.length_flatten, List.map_map]
        rfl
  · obtain ⟨key, -, rfl⟩ := List.mem_map.mp hgroup
    exact List.filter_sublist
  · rw [bucketsConserve_iff, List.forall₂_map_left_iff, List.forall₂_map_right_iff,
      List.forall₂_same]
    exact fun key hkey => hbuckets key

theorem conserves_compactInner (fuel : ℕ) (items : List Value) :
    Conserves (compactInner config fuel items) items := by
  induction fuel generalizing items with
  | zero => rw [compactInner, Conserves]
  | succ fuel ih =>
      rw [compactInner]
      split_ifs
      · rw [Conserves]
      · dsimp only
        split
        · exact conserves_bucketBy ih items _
        · exact conserves_buildHomogeneousTable config ih items

end

/-! ## The whole run -/

/-- The rows of a compacted array are as many as its items. -/
theorem rowCount_of_conserves {compaction : Compaction} (hconserves : Conserves compaction items)
    (hcompacted : compaction.wasCompacted = true) : compaction.rowCount = items.length := by
  cases compaction with
  | table schema rows originalCount =>
      rw [Conserves, rowsConserve_iff] at hconserves
      exact hconserves.2.length_eq
  | buckets discriminator buckets originalCount =>
      rw [Conserves] at hconserves
      exact hconserves.2.1.trans hconserves.1
  | opaqueRef ccrHash byteSize kind =>
      rw [Conserves] at hconserves
      exact hconserves.elim
  | untouched value => cases hcompacted

def CompactConfig.default : CompactConfig ℚ := ⟨.default, 2, 0.8, 0.6, 6, 2, 8⟩

section

variable {F : Type*} [Float64 F]

end

end Legroom.SmartCrusher
