import Legroom.SmartCrusher.Rows
import Mathlib.Data.List.ReduceOption

/-!
# The compactor with its loops

The compactor as it runs.  Columns are flattened one after the other, in place, and
every row is rewritten by removing one cell and inserting others where it was; the loop
stops the program at a cell that is neither an object nor missing, and at an index
outside of a row.  A run that does not end runs out of fuel.  None of this happens, and
what comes out is the table of `compactInner`.
-/

namespace Legroom.SmartCrusher.Loops

open Json Utf8

inductive Fault where
  | outOfFuel
  /-- The arm that `uniform_object_keys` is to rule out. -/
  | unreachable
  | outOfBounds
  deriving DecidableEq

/-! ## Flattening in place -/

/-- `Vec::insert`. -/
def insertAt (row : List CellValue) (cell : CellValue × ℕ) : Except Fault (List CellValue) :=
  if cell.2 ≤ row.length then .ok (row.insertIdx cell.2 cell.1) else .error .outOfBounds

/-- The fields that a cell is expanded to. -/
def innerObject : CellValue → Except Fault (Option Value)
  | .scalar (.object fields) => .ok (some (.object fields))
  | .missing => .ok none
  | _ => .error .unreachable

def expanded (inner : Option Value) (name : Utf8String) : CellValue :=
  match inner with
  | none => .missing
  | some fields =>
      match fields.get name with
      | none => .missing
      | some value => .scalar value

def rewriteRow (index : ℕ) (innerKeys : List Utf8String) (row : List CellValue) :
    Except Fault (List CellValue) :=
  match row[index]? with
  | none => .error .outOfBounds
  | some original => do
      let inner ← innerObject original
      ((innerKeys.map (expanded inner)).zipIdx index).foldlM insertAt (row.eraseIdx index)

/-- The columns in front of the index are done, and the others are still to come. -/
def flattenUniformNested (maxFlattenInnerKeys : ℕ) : List FieldSpec → List FieldSpec →
    List (List CellValue) → Except Fault (List FieldSpec × List (List CellValue))
  | done, [], rows => .ok (done, rows)
  | done, spec :: specs, rows =>
      match flattenedKeys maxFlattenInnerKeys spec (column rows done.length) with
      | none => flattenUniformNested maxFlattenInnerKeys (done ++ [spec]) specs rows
      | some innerKeys => do
          let rows ← rows.mapM (rewriteRow done.length innerKeys)
          let newSpecs := innerKeys.mapIdx fun offset name =>
            let (typeTag, nullable) :=
              inferTypeTagFromCells (column rows (done.length + offset)).reduceOption
            ⟨spec.name ++ constant "." ++ name, typeTag, nullable⟩
          flattenUniformNested maxFlattenInnerKeys (done ++ newSpecs) specs rows

/-! ## Compaction -/

section

variable {F : Type*} [Float64 F] (config : CompactConfig F)
  (inner : List Value → Except Fault Compaction)

def cellFromValue (value : Value) : Except Fault CellValue :=
  match classifyCell config.classify value, value with
  | .jsonArray, .array items =>
      if isTabular items then (inner items).map .nested else .ok (.scalar value)
  | .stringifiedJson (.array items), _ =>
      if isTabular items then (inner items).map .nested else .ok (.scalar (.array items))
  | .stringifiedJson parsed, _ => .ok (.scalar parsed)
  | .opaqueBlob kind, .string text => .ok (.opaqueRef (hashOpaque text) text.bytes.length kind)
  | _, _ => .ok (.scalar value)

def buildRow (names : List Utf8String) (item : Value) : Except Fault (List CellValue) :=
  names.mapM fun name =>
    match item.get name with
    | some value => cellFromValue config inner value
    | none => .ok .missing

def buildHomogeneousTable (items : List Value) (keyFreqs : List (Utf8String × ℕ)) :
    Except Fault Compaction := do
  let names := orderedKeys keyFreqs
  let rows ← items.mapM (buildRow config inner names)
  let (specs, rows) ← flattenUniformNested config.maxFlattenInnerKeys []
    (names.map (fieldSpec items keyFreqs)) rows
  return .table specs rows items.length

def bucketBy (items : List Value) (discriminator : Utf8String) : Except Fault Compaction := do
  let buckets ← (groupKeys items discriminator).mapM fun key =>
    let group := groupItems items discriminator key
    (inner group).map (bucketOf key group)
  return .buckets discriminator buckets items.length

end

section

variable {F : Type*} [Float64 F] (config : CompactConfig F)

def compactInner : ℕ → List Value → Except Fault Compaction
  | 0, _ => .error .outOfFuel
  | fuel + 1, items =>
      if items.length < config.minItems ∨ items.all isObject = false then
        .ok (.untouched (.array items))
      else
        let keyFreqs := computeKeyFreqs items
        let discriminator :=
          if isHeterogeneous config items keyFreqs then detectDiscriminator config items keyFreqs
          else none
        match discriminator with
        | some name => bucketBy (compactInner fuel) items name
        | none => buildHomogeneousTable config (compactInner fuel) items keyFreqs

end

/-! ## The flattening loop -/

/-- A loop over a list whose steps all return. -/
theorem mapM_eq_ok {α β : Type*} {items : List α} {run : α → Except Fault β} {value : α → β}
    (hrun : ∀ item ∈ items, run item = .ok (value item)) :
    items.mapM run = .ok (items.map value) := by
  induction items with
  | nil => rfl
  | cons item items ih =>
      have hitem := hrun item List.mem_cons_self
      have hitems := ih fun other hother => hrun other (List.mem_cons_of_mem item hother)
      rw [List.mapM_cons, hitem, hitems]
      rfl

theorem insertIdx_length_append (left right : List CellValue) (cell : CellValue) :
    (left ++ right).insertIdx left.length cell = left ++ [cell] ++ right := by
  induction left with
  | nil => rfl
  | cons first left ih =>
      rw [List.length_cons, List.cons_append, List.insertIdx_succ_cons, ih]
      rfl

/-- Cells inserted one after the other stand where the first was put. -/
theorem foldlM_insertAt (cells left right : List CellValue) :
    (cells.zipIdx left.length).foldlM insertAt (left ++ right) =
      .ok (left ++ cells ++ right) := by
  induction cells generalizing left with
  | nil => rw [List.append_nil]; rfl
  | cons cell cells ih =>
      have hinsert : insertAt (left ++ right) (cell, left.length) =
          .ok (left ++ [cell] ++ right) := by
        rw [insertAt, if_pos (by simp)]
        exact congrArg Except.ok (insertIdx_length_append left right cell)
      have hrest := ih (left ++ [cell])
      rw [List.length_append, List.length_singleton] at hrest
      rw [List.zipIdx_cons, List.foldlM_cons, hinsert]
      change (cells.zipIdx (left.length + 1)).foldlM insertAt (left ++ [cell] ++ right) = _
      rw [hrest, List.append_cons left cell cells]

variable {index : ℕ} {row : List CellValue}

theorem rewriteRow_eq {innerKeys : List Utf8String} {cell : CellValue}
    (hcell : row[index]? = some cell)
    (hshape : cell = .missing ∨ ∃ fields, cell = .scalar (.object fields)) :
    rewriteRow index innerKeys row =
      .ok (row.take index ++ innerKeys.map (innerCell · cell) ++ row.drop (index + 1)) := by
  obtain ⟨hindex, -⟩ := List.getElem?_eq_some_iff.mp hcell
  have hinserted := fun cells => foldlM_insertAt cells (row.take index) (row.drop (index + 1))
  rw [List.length_take_of_le hindex.le, ← List.eraseIdx_eq_take_drop_succ] at hinserted
  rw [rewriteRow, hcell]
  dsimp only
  rcases hshape with rfl | ⟨fields, rfl⟩
  · exact hinserted _
  · have hexpanded : expanded (some (.object fields)) =
        (innerCell · (.scalar (.object fields))) := by
      funext name
      rw [expanded, innerCell]
      cases (Value.object fields).get name <;> rfl
    rw [← hexpanded]
    exact hinserted _

/-- What becomes of each column. -/
def expansions (maxFlattenInnerKeys : ℕ) (specs : List FieldSpec)
    (rows : List (List CellValue)) : List (Option (List Utf8String)) :=
  specs.mapIdx fun index spec => flattenedKeys maxFlattenInnerKeys spec (column rows index)

def expandSpecs (maxFlattenInnerKeys : ℕ) (specs : List FieldSpec)
    (rows : List (List CellValue)) : List FieldSpec :=
  (specs.mapIdx fun index spec =>
    let cells := column rows index
    expandSpec spec cells (flattenedKeys maxFlattenInnerKeys spec cells)).flatten

def expandRow (expansions : List (Option (List Utf8String))) (row : List CellValue) :
    List CellValue :=
  (List.zipWith expandCell expansions row).flatten
variable (maxFlattenInnerKeys : ℕ)

theorem flattenUniformNested_eq (specs : List FieldSpec) (rows : List (List CellValue)) :
    SmartCrusher.flattenUniformNested maxFlattenInnerKeys specs rows =
      (expandSpecs maxFlattenInnerKeys specs rows,
        rows.map (expandRow (expansions maxFlattenInnerKeys specs rows))) := rfl

variable (rows : List (List CellValue))

theorem column_tail (index : ℕ) : column (rows.map List.tail) index = column rows (index + 1) := by
  rw [column, column, List.map_map]
  refine List.map_congr_left fun row hrow => ?_
  exact List.getElem?_tail

theorem expansions_cons (spec : FieldSpec) (specs : List FieldSpec) (rows : List (List CellValue)) :
    expansions maxFlattenInnerKeys (spec :: specs) rows =
      flattenedKeys maxFlattenInnerKeys spec (column rows 0) ::
        expansions maxFlattenInnerKeys specs (rows.map List.tail) := by
  simp only [expansions, List.mapIdx_cons, column_tail]

theorem expandSpecs_cons (spec : FieldSpec) (specs : List FieldSpec)
    (rows : List (List CellValue)) :
    expandSpecs maxFlattenInnerKeys (spec :: specs) rows =
      expandSpec spec (column rows 0) (flattenedKeys maxFlattenInnerKeys spec (column rows 0)) ++
        expandSpecs maxFlattenInnerKeys specs (rows.map List.tail) := by
  simp only [expandSpecs, List.mapIdx_cons, column_tail, List.flatten_cons]

/-- The columns from an index on. -/
theorem column_drop (start index : ℕ) :
    column (rows.map (List.drop start)) index = column rows (start + index) := by
  rw [column, column, List.map_map]
  refine List.map_congr_left fun row hrow => ?_
  exact List.getElem?_drop

theorem map_tail_drop (start : ℕ) :
    (rows.map (List.drop start)).map List.tail = rows.map (List.drop (start + 1)) := by
  rw [List.map_map]
  exact List.map_congr_left fun row hrow => List.tail_drop

/-- The types of the new columns are those of their cells. -/
theorem expandSpec_eq {rows : List (List CellValue)} {spec : FieldSpec} {start : ℕ}
    {names : List Utf8String} {rewrite : List CellValue → List CellValue}
    (hrows : ∀ row ∈ rows, ∃ cell, row[start]? = some cell ∧ ∀ offset name,
      names[offset]? = some name → (rewrite row)[start + offset]? = some (innerCell name cell)) :
    (names.mapIdx fun offset name =>
      let (typeTag, nullable) :=
        inferTypeTagFromCells (column (rows.map rewrite) (start + offset)).reduceOption
      (⟨spec.name ++ constant "." ++ name, typeTag, nullable⟩ : FieldSpec)) =
      expandSpec spec (column rows start) (some names) := by
  rw [expandSpec]
  refine List.ext_getElem? fun offset => ?_
  rw [List.getElem?_mapIdx, List.getElem?_map]
  cases hname : names[offset]? with
  | none => rfl
  | some name =>
      have hcells : (column (rows.map rewrite) (start + offset)).reduceOption =
          (column rows start).map fun cell => innerCell name (cell.getD .missing) := by
        induction rows with
        | nil => rfl
        | cons row rows ih =>
            obtain ⟨cell, hcell, hrewritten⟩ := hrows row List.mem_cons_self
            have hrest := ih fun other hother => hrows other (List.mem_cons_of_mem row hother)
            simp only [column, List.map_cons, hrewritten offset name hname, hcell] at hrest ⊢
            rw [List.reduceOption_cons_of_some, hrest]
            rfl
      simp only [Option.map_some, hcells]

/-- A row with one cell expanded. -/
def expandAt (index : ℕ) (names : List Utf8String) (row : List CellValue) : List CellValue :=
  row.take index ++ names.map (innerCell · (row[index]?.getD .missing)) ++ row.drop (index + 1)

theorem drop_expandAt (hindex : index < row.length) (names : List Utf8String) :
    (expandAt index names row).drop (index + names.length) = row.drop (index + 1) := by
  rw [expandAt, List.drop_left' (by simp [hindex.le])]

theorem take_expandAt (hindex : index < row.length) (names : List Utf8String) :
    (expandAt index names row).take (index + names.length) =
      row.take index ++ names.map (innerCell · (row[index]?.getD .missing)) := by
  rw [expandAt, List.take_left' (by simp [hindex.le])]

theorem getElem?_expandAt {offset : ℕ} {names : List Utf8String} {cell : CellValue}
    {name : Utf8String} (hcell : row[index]? = some cell) (hname : names[offset]? = some name) :
    (expandAt index names row)[index + offset]? = some (innerCell name cell) := by
  obtain ⟨hindex, -⟩ := List.getElem?_eq_some_iff.mp hcell
  obtain ⟨hoffset, -⟩ := List.getElem?_eq_some_iff.mp hname
  rw [expandAt, List.getElem?_append_left (by simp; omega),
    List.getElem?_append_right (by simp)]
  simp [hindex.le, hname, hcell]

/-- The loop never stops, and makes the columns and rows of the flattened table. -/
theorem flattenUniformNested_eq_ok (done specs : List FieldSpec) (rows : List (List CellValue))
    (hrows : ∀ row ∈ rows, row.length = done.length + specs.length) :
    flattenUniformNested maxFlattenInnerKeys done specs rows =
      .ok (done ++ expandSpecs maxFlattenInnerKeys specs (rows.map (List.drop done.length)),
        rows.map fun row => row.take done.length ++
          expandRow (expansions maxFlattenInnerKeys specs (rows.map (List.drop done.length)))
            (row.drop done.length)) := by
  induction specs generalizing done rows with
  | nil =>
      have hwhole : ∀ row ∈ rows, row.take done.length ++ expandRow [] (row.drop done.length) =
          row := by
        intro row hrow
        rw [List.take_of_length_le (by exact (hrows row hrow).le), expandRow, List.zipWith_nil_left]
        exact List.append_nil row
      rw [flattenUniformNested]
      simp only [expandSpecs, expansions, List.mapIdx_nil, List.flatten_nil, List.append_nil]
      rw [List.map_congr_left hwhole, List.map_id']
  | cons spec specs ih =>
      have hcell : ∀ row ∈ rows, ∃ cell, row[done.length]? = some cell := by
        intro row hrow
        have hlength := hrows row hrow
        rw [List.length_cons] at hlength
        exact ⟨row[done.length], List.getElem?_eq_getElem (by omega)⟩
      rw [flattenUniformNested, expansions_cons, expandSpecs_cons, column_drop, map_tail_drop,
        Nat.add_zero]
      cases hnames : flattenedKeys maxFlattenInnerKeys spec (column rows done.length) with
      | none =>
          dsimp only
          rw [ih (done ++ [spec]) rows fun row hrow => by
            have hlength := hrows row hrow
            simp only [List.length_append, List.length_cons, List.length_nil] at hlength ⊢
            omega]
          rw [List.length_append, List.length_singleton, expandSpec, List.append_assoc]
          refine congrArg Except.ok (congrArg _ (List.map_congr_left fun row hrow => ?_))
          obtain ⟨cell, hcell⟩ := hcell row hrow
          obtain ⟨hindex, hget⟩ := List.getElem?_eq_some_iff.mp hcell
          rw [← List.take_append_getElem hindex, List.drop_eq_getElem_cons hindex, hget, expandRow,
            expandRow, List.zipWith_cons_cons, List.flatten_cons, List.append_assoc]
          rfl
      | some names =>
          have hrewrite : rows.mapM (rewriteRow done.length names) =
              .ok (rows.map (expandAt done.length names)) := by
            refine mapM_eq_ok fun row hrow => ?_
            obtain ⟨cell, hcell⟩ := hcell row hrow
            have hseen : some cell ∈ column rows done.length :=
              List.mem_map.mpr ⟨row, hrow, hcell⟩
            have hshape : cell = .missing ∨ ∃ fields, cell = .scalar (.object fields) := by
              rcases flattenedKeys_spec hnames _ hseen with hmissing | ⟨fields, hobject, -⟩
              · exact .inl (Option.some.inj hmissing)
              · exact .inr ⟨fields, Option.some.inj hobject⟩
            rw [rewriteRow_eq hcell hshape, expandAt, hcell, Option.getD_some]
          have hspecs := @expandSpec_eq rows spec done.length names (expandAt done.length names)
            fun row hrow => by
              obtain ⟨cell, hcell⟩ := hcell row hrow
              exact ⟨cell, hcell, fun offset name hname => getElem?_expandAt hcell hname⟩
          have hindex : ∀ row ∈ rows, done.length < row.length := fun row hrow =>
            (List.getElem?_eq_some_iff.mp (hcell row hrow).choose_spec).1
          have hlength : (done ++ expandSpec spec (column rows done.length) (some names)).length =
              done.length + names.length := by
            simp [expandSpec]
          have hdropped : (rows.map (expandAt done.length names)).map
              (List.drop (done.length + names.length)) =
                rows.map (List.drop (done.length + 1)) := by
            rw [List.map_map]
            exact List.map_congr_left fun row hrow => drop_expandAt (hindex row hrow) names
          dsimp only
          rw [hrewrite]
          change flattenUniformNested _ (done ++ names.mapIdx _) specs _ = _
          rw [hspecs, ih _ _ fun row hrow => ?_, hlength, hdropped, List.append_assoc,
            List.map_map]
          · refine congrArg Except.ok (congrArg _ (List.map_congr_left fun row hrow => ?_))
            obtain ⟨cell, hcell⟩ := hcell row hrow
            obtain ⟨hbound, hget⟩ := List.getElem?_eq_some_iff.mp hcell
            rw [Function.comp_apply, take_expandAt (hindex row hrow),
              drop_expandAt (hindex row hrow), List.drop_eq_getElem_cons (hindex row hrow), hget,
              hcell, expandRow, expandRow, List.zipWith_cons_cons, List.flatten_cons,
              List.append_assoc]
            rfl
          · obtain ⟨source, hsource, rfl⟩ := List.mem_map.mp hrow
            have hlong := hrows source hsource
            rw [List.length_cons] at hlong
            rw [hlength, expandAt]
            simp only [List.length_append, List.length_take, List.length_map, List.length_drop]
            omega

/-! ## Fuel -/

/-- A run returns the value, unless it had too little fuel and ran out of it. -/
def Runs {α : Type} (enough : Prop) (run : Except Fault α) (value : α) : Prop :=
  run = .ok value ∨ ¬enough ∧ run = .error .outOfFuel

namespace Runs

variable {α β : Type} {enough : Prop} {run : Except Fault α} {value : α}

theorem mono {more : Prop} (hruns : Runs enough run value) (himp : more → enough) :
    Runs more run value :=
  hruns.imp_right fun hfault => ⟨fun hmore => hfault.1 (himp hmore), hfault.2⟩

theorem bind {next : α → Except Fault β} {result : β} (hruns : Runs enough run value)
    (hnext : Runs enough (next value) result) : Runs enough (run >>= next) result := by
  rcases hruns with hok | ⟨henough, hfault⟩
  · rw [hok]
    exact hnext
  · rw [hfault]
    exact .inr ⟨henough, rfl⟩

theorem map (hruns : Runs enough run value) (next : α → β) :
    Runs enough (run.map next) (next value) := by
  rcases hruns with hok | ⟨henough, hfault⟩
  · exact .inl (by rw [hok]; rfl)
  · exact .inr ⟨henough, by rw [hfault]; rfl⟩

theorem mapM {items : List α} {run : α → Except Fault β} {value : α → β}
    (hruns : ∀ item ∈ items, Runs enough (run item) (value item)) :
    Runs enough (items.mapM run) (items.map value) := by
  induction items with
  | nil => exact .inl rfl
  | cons item items ih =>
      have hitems := ih fun other hother => hruns other (List.mem_cons_of_mem item hother)
      rw [List.mapM_cons]
      exact Runs.bind (hruns item List.mem_cons_self) (Runs.bind hitems (.inl rfl))

end Runs

/-- What is to be compacted. -/
def totalWeight (items : List Value) : ℕ := (items.map Value.weight).sum

variable {items : List Value}

theorem weight_le_totalWeight {item : Value} (hitem : item ∈ items) :
    item.weight ≤ totalWeight items :=
  List.le_sum_of_mem (List.mem_map_of_mem hitem)

theorem totalWeight_lt_array (items : List Value) :
    totalWeight items < (Value.array items).weight := by
  rw [Value.weight, Value.weightElements_eq, totalWeight]
  exact Nat.lt_succ_self _

theorem totalWeight_lt_string {text : Utf8String}
    (hparse : tryParseJsonContainer text = some (.array items)) :
    totalWeight items < (Value.string text).weight := by
  have hvalue : valueFromSlice text.bytes = some (.array items) := by
    rw [tryParseJsonContainer] at hparse
    split at hparse
    · split_ifs at hparse
      exact (Option.filter_eq_some_iff.mp hparse).1
    · cases hparse
  calc
    totalWeight items < (Value.array items).weight := totalWeight_lt_array items
    _ ≤ text.bytes.length := weight_le_of_valueFromSlice hvalue
    _ < (Value.string text).weight := by rw [Value.weight]; exact Nat.lt_succ_self _

/-- A group that leaves out an item weighs less. -/
theorem totalWeight_filter_lt {holds : Value → Bool} {item : Value} (hitem : item ∈ items)
    (hout : holds item = false) : totalWeight (items.filter holds) < totalWeight items := by
  have hsplit := ((List.filter_append_perm holds items).map Value.weight).sum_eq
  have hmem : item ∈ items.filter fun item => !holds item :=
    List.mem_filter.mpr ⟨hitem, by rw [hout]; rfl⟩
  have hrest := weight_le_totalWeight hmem
  have hpos := item.weight_pos
  rw [List.map_append, List.sum_append] at hsplit
  rw [totalWeight] at hrest ⊢
  rw [totalWeight]
  omega

/-! ## The compactor runs to its table -/

section

variable {F : Type*} [Float64 F] (config : CompactConfig F)
variable {items : List Value}
variable {keyFreqs : List (Utf8String × ℕ)}

theorem discriminatorScore_of_detect {name : Utf8String}
    (hdetect : detectDiscriminator config items keyFreqs = some name) :
    ∃ count, discriminatorScore config items name = some count := by
  obtain ⟨pair, hpair, rfl⟩ := Option.map_eq_some_iff.mp hdetect
  refine ⟨pair.2, List.foldlRecOn (motive := fun best : Option (Utf8String × ℕ) =>
    ∀ pair ∈ best, discriminatorScore config items pair.1 = some pair.2) keyFreqs _
    (fun _ hnone => absurd hnone (Option.not_mem_none _)) (fun best hbest first _ pair hpair => ?_)
    pair hpair⟩
  split_ifs at hpair
  · exact hbest pair hpair
  · split at hpair
    · rename_i count hscore
      cases hpair
      exact hscore
    · rename_i count other most hscore
      split_ifs at hpair
      · cases hpair
        exact hscore
      · exact hbest pair hpair
    · exact hbest pair hpair

/-- A field that makes two buckets or more has two values. -/
theorem exists_outside_group {items : List Value} {name key : Utf8String} {count : ℕ}
    (hbuckets : 2 ≤ config.minBuckets)
    (hscore : discriminatorScore config items name = some count) :
    ∃ item ∈ items, bucketKey name item ≠ key := by
  rw [discriminatorScore] at hscore
  dsimp only at hscore
  split_ifs at hscore with _ hcount _
  have hmany : 1 < (items.filterMap fun item =>
      (item.get name).bind Value.asStr).dedup.length := by omega
  by_contra hall
  push Not at hall
  have hsame : ∀ value ∈ (items.filterMap fun item =>
      (item.get name).bind Value.asStr).dedup, value = key := by
    intro value hvalue
    obtain ⟨item, hitem, hget⟩ := List.mem_filterMap.mp (List.mem_dedup.mp hvalue)
    have hkey := hall item hitem
    rwa [bucketKey, hget, Option.getD_some] at hkey
  have hreplicate := List.eq_replicate_of_mem hsame
  have hnodup := List.nodup_dedup (items.filterMap fun item =>
    (item.get name).bind Value.asStr)
  rw [hreplicate, List.nodup_replicate] at hnodup
  omega

theorem totalWeight_group_lt {name key : Utf8String} (hbuckets : 2 ≤ config.minBuckets)
    (hdetect : detectDiscriminator config items keyFreqs = some name) :
    totalWeight (groupItems items name key) < totalWeight items := by
  obtain ⟨count, hscore⟩ := discriminatorScore_of_detect config hdetect
  obtain ⟨item, hitem, hkey⟩ :=
    @exists_outside_group F _ config items name key count hbuckets hscore
  exact totalWeight_filter_lt hitem (by simpa using hkey)

variable {inner : List Value → Except Fault Compaction} {pure : List Value → Compaction}
  {enough : Prop}

theorem runs_cellFromValue {value : Value}
    (hinner : ∀ items, totalWeight items < value.weight → Runs enough (inner items) (pure items)) :
    Runs enough (cellFromValue config inner value)
      (SmartCrusher.cellFromValue config pure value) := by
  have harray : ∀ items found, totalWeight items < value.weight → Runs enough
      (if isTabular items then (inner items).map CellValue.nested else .ok (.scalar found))
      (if isTabular items then CellValue.nested (pure items) else .scalar found) := by
    intro items found hlight
    split_ifs
    · exact Runs.map (hinner items hlight) CellValue.nested
    · exact .inl rfl
  cases value with
  | array items => exact harray items _ (totalWeight_lt_array items)
  | string text =>
      have hclass : classifyCell config.classify (.string text) =
          classifyString config.classify text := rfl
      rw [cellFromValue.eq_def, SmartCrusher.cellFromValue.eq_def, hclass, classifyString.eq_def]
      cases hparse : tryParseJsonContainer text with
      | none =>
          dsimp only
          split_ifs <;> exact .inl rfl
      | some parsed =>
          cases parsed with
          | array items => exact harray items _ (totalWeight_lt_string hparse)
          | _ => exact .inl rfl
  | _ => exact .inl rfl

theorem runs_buildRow (names : List Utf8String) {item : Value}
    (hinner : ∀ items, totalWeight items < item.weight → Runs enough (inner items) (pure items)) :
    Runs enough (buildRow config inner names item)
      (SmartCrusher.buildRow config pure names item) := by
  refine Runs.mapM fun name hname => ?_
  cases hget : item.get name with
  | none => exact .inl rfl
  | some value =>
      exact runs_cellFromValue config fun items hlight =>
        hinner items (hlight.trans (Value.weight_get hget))

theorem runs_buildHomogeneousTable (keyFreqs : List (Utf8String × ℕ))
    (hinner : ∀ others, totalWeight others < totalWeight items →
      Runs enough (inner others) (pure others)) :
    Runs enough (buildHomogeneousTable config inner items keyFreqs)
      (SmartCrusher.buildHomogeneousTable config pure items keyFreqs) := by
  have hrows : Runs enough (items.mapM (buildRow config inner (orderedKeys keyFreqs)))
      (items.map (SmartCrusher.buildRow config pure (orderedKeys keyFreqs))) :=
    Runs.mapM fun item hitem => runs_buildRow config _ fun others hlight =>
      hinner others (hlight.trans_le (weight_le_totalWeight hitem))
  have hflat := flattenUniformNested_eq_ok config.maxFlattenInnerKeys []
    ((orderedKeys keyFreqs).map (fieldSpec items keyFreqs))
    (items.map (SmartCrusher.buildRow config pure (orderedKeys keyFreqs))) fun row hrow => by
      obtain ⟨item, -, rfl⟩ := List.mem_map.mp hrow
      simp [SmartCrusher.buildRow]
  have hdrop : (List.drop 0 : List CellValue → List CellValue) = id := rfl
  simp only [List.length_nil, List.take_zero, List.nil_append, hdrop, List.map_id, id] at hflat
  refine Runs.bind hrows ?_
  rw [hflat, SmartCrusher.buildHomogeneousTable, flattenUniformNested_eq]
  exact .inl rfl

theorem runs_bucketBy {discriminator : Utf8String}
    (hinner : ∀ key, Runs enough (inner (groupItems items discriminator key))
      (pure (groupItems items discriminator key))) :
    Runs enough (bucketBy inner items discriminator)
      (SmartCrusher.bucketBy pure items discriminator) :=
  Runs.bind (Runs.mapM fun key _ => Runs.map (hinner key) (bucketOf key _)) (.inl rfl)

/-- The compactor makes the compaction of `compactInner` and never stops in its loops.
It has enough fuel for the weight of the items if buckets come in twos at least. -/
theorem runs_compactInner (fuel : ℕ) (items : List Value) :
    Runs (2 ≤ config.minBuckets ∧ totalWeight items < fuel) (compactInner config fuel items)
      (SmartCrusher.compactInner config fuel items) := by
  induction fuel generalizing items with
  | zero => exact .inr ⟨fun henough => absurd henough.2 (Nat.not_lt_zero _), rfl⟩
  | succ fuel ih =>
      rw [compactInner, SmartCrusher.compactInner]
      split_ifs with hdeclined
      · exact .inl rfl
      · dsimp only
        cases hdiscriminator :
            (if isHeterogeneous config items (computeKeyFreqs items) then
              detectDiscriminator config items (computeKeyFreqs items) else none) with
        | none =>
            refine runs_buildHomogeneousTable config _ fun others hlight =>
              (ih others).mono fun henough => ⟨henough.1, ?_⟩
            exact hlight.trans_le (Nat.le_of_lt_succ henough.2)
        | some name =>
            have hdetect : detectDiscriminator config items (computeKeyFreqs items) =
                some name := by
              split_ifs at hdiscriminator
              exact hdiscriminator
            refine runs_bucketBy fun key => (ih _).mono fun henough => ⟨henough.1, ?_⟩
            exact (totalWeight_group_lt config henough.1 hdetect).trans_le
              (Nat.le_of_lt_succ henough.2)

end

end Legroom.SmartCrusher.Loops
