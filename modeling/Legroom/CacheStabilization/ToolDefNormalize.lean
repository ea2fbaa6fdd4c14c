import Legroom.CacheStabilization.Canonical
import Legroom.Lib.Json.Put

/-!
# Tool definitions in a fixed order

Tools are sorted by name and the fields of their schemas by key.  Sorting a schema
is the canonical form of its content, so it keeps the content and does nothing the
second time; sorted tools of distinct keys do not depend on the order they came in.
-/

namespace Legroom.CacheStabilization

open Json Utf8

/-! ## Tools -/

/-- The name of a tool, at the top level or in its `function`. -/
def toolName (tool : Value) : Option Utf8String :=
  match tool.getStr "name" with
  | some name => some name
  | none => (tool.get (constant "function")).bind fun function => function.getStr "name"

def anyToolHasCacheControl (tools : List Value) : Bool :=
  tools.any fun tool => (tool.get (constant "cache_control")).isSome

section

variable (md5 : Bytes → Vector Byte 16)

/-- A tool without a name is sorted by the digest of its text. -/
def sortKey (tool : Value) : Utf8String :=
  match toolName tool with
  | some name => name
  | none => hexPrefix (md5 tool.toJson.bytes).toList 16

def KeyLe (left right : Value) : Prop := (sortKey md5 left).bytes ≤ (sortKey md5 right).bytes

instance : DecidableRel (KeyLe md5) := fun left right =>
  inferInstanceAs (Decidable ((sortKey md5 left).bytes ≤ (sortKey md5 right).bytes))

instance : Std.Total (KeyLe md5) where
  total left right := List.le_total (sortKey md5 left).bytes (sortKey md5 right).bytes

instance : IsTrans Value (KeyLe md5) where
  trans _ _ _ := List.le_trans

/-- The sorted tools, and whether the order has changed. -/
def sortToolsDeterministically (tools : List Value) : List Value × Bool :=
  let sorted := tools.insertionSort (KeyLe md5)
  (sorted, decide (tools.map (sortKey md5) ≠ sorted.map (sortKey md5)))

/-! ## The order of tools -/

theorem sortKey_of_toolName {tool : Value} {name : Utf8String}
    (hname : toolName tool = some name) : sortKey md5 tool = name := by
  rw [sortKey, hname]

theorem pairwise_of_keys {left right : List Value}
    (hkeys : left.map (sortKey md5) = right.map (sortKey md5))
    (hright : right.Pairwise (KeyLe md5)) : left.Pairwise (KeyLe md5) := by
  have hmapped : (right.map (sortKey md5)).Pairwise fun name other => name.bytes ≤ other.bytes :=
    List.pairwise_map.mpr hright
  rw [← hkeys, List.pairwise_map] at hmapped
  exact hmapped

variable {tools : List Value}

/-- If the keys have not moved, no tool has. -/
theorem sortTools_eq_of_unmoved (hunmoved : (sortToolsDeterministically md5 tools).2 = false) :
    (sortToolsDeterministically md5 tools).1 = tools := by
  have hkeys : tools.map (sortKey md5) =
      (tools.insertionSort (KeyLe md5)).map (sortKey md5) := by
    simpa [sortToolsDeterministically] using hunmoved
  exact List.Pairwise.insertionSort_eq
    (pairwise_of_keys md5 hkeys (List.pairwise_insertionSort (KeyLe md5) tools))

/-- Tools whose keys are in order stay. -/
theorem sortTools_of_pairwise (htools : tools.Pairwise (KeyLe md5)) :
    sortToolsDeterministically md5 tools = (tools, false) := by
  have hsorted : tools.insertionSort (KeyLe md5) = tools := htools.insertionSort_eq
  simp [sortToolsDeterministically, hsorted]

/-- What is made of sorted tools of distinct keys depends on the tools only as far as their
keys and what is made of each. -/
theorem map_sortTools_eq {left right : List Value} (new : Value → Value)
    (hleft : (left.map (sortKey md5)).Nodup)
    (hperm : (left.map fun tool => (sortKey md5 tool, new tool)).Perm
      (right.map fun tool => (sortKey md5 tool, new tool))) :
    (sortToolsDeterministically md5 left).1.map new =
      (sortToolsDeterministically md5 right).1.map new := by
  have hmap : ∀ tools : List Value,
      (tools.insertionSort (KeyLe md5)).map (fun tool => (sortKey md5 tool, new tool)) =
        (tools.map fun tool => (sortKey md5 tool, new tool)).insertionSort FieldLe := fun tools =>
    List.map_insertionSort _ _ _ _ fun _ _ _ _ => Iff.rfl
  have hnames : (left.map fun tool => (sortKey md5 tool, new tool)).map Prod.fst =
      left.map (sortKey md5) := by
    rw [List.map_map]
    rfl
  have hnodup : ((left.map fun tool => (sortKey md5 tool, new tool)).map Prod.fst).Nodup := by
    rwa [hnames]
  have hsorted := (insertionSort_eq_iff hnodup
    ((hperm.map Prod.fst).nodup_iff.mp hnodup)).mpr fun field => hperm.mem_iff
  rw [← hmap, ← hmap] at hsorted
  have hnew := congrArg (List.map Prod.snd) hsorted
  rw [List.map_map, List.map_map] at hnew
  exact hnew

end

/-! ## Schemas -/

mutual

def sortSchemaKeysRecursive : Value → Value
  | .object fields => .object ((sortSchemaFields fields).insertionSort FieldLe)
  | .array items => .array (sortSchemaItems items)
  | .null => .null
  | .bool value => .bool value
  | .number literal => .number literal
  | .string text => .string text

def sortSchemaFields : List (Utf8String × Value) → List (Utf8String × Value)
  | [] => []
  | (name, value) :: fields => (name, sortSchemaKeysRecursive value) :: sortSchemaFields fields

def sortSchemaItems : List Value → List Value
  | [] => []
  | item :: items => sortSchemaKeysRecursive item :: sortSchemaItems items

end

variable (fields : List (Utf8String × Value))

theorem sortSchemaFields_eq :
    sortSchemaFields fields =
      fields.map fun field => (field.1, sortSchemaKeysRecursive field.2) := by
  induction fields with
  | nil => rfl
  | cons field fields ih =>
      obtain ⟨name, value⟩ := field
      rw [sortSchemaFields, ih, List.map_cons]

theorem sortSchemaItems_eq (items : List Value) :
    sortSchemaItems items = items.map sortSchemaKeysRecursive := by
  induction items with
  | nil => rfl
  | cons item items ih => rw [sortSchemaItems, ih, List.map_cons]

theorem canonicalFields_true :
    canonicalFields true fields =
      fields.map fun field => (field.1, canonicalizeForHash true field.2) := by
  induction fields with
  | nil => rfl
  | cons field fields ih =>
      obtain ⟨name, value⟩ := field
      rw [canonicalFields, ih]
      rfl

/-- Inside a payload nothing is dropped, so the canonical form sorts the keys. -/
theorem sortSchemaKeysRecursive_eq (schema : Value) :
    sortSchemaKeysRecursive schema = canonicalizeForHash true schema := by
  induction schema using Value.inductionOn with
  | null => rfl
  | bool value => rfl
  | number literal => rfl
  | string text => rfl
  | array items ih =>
      rw [sortSchemaKeysRecursive, canonicalizeForHash, sortSchemaItems_eq, canonicalItems_eq,
        List.map_congr_left ih]
  | object fields ih =>
      rw [sortSchemaKeysRecursive, canonicalizeForHash, sortSchemaFields_eq, canonicalFields_true,
        List.map_congr_left fun field hfield => by rw [ih field hfield]]

variable {schema : Value}

/-- Sorting the keys keeps the content: the fields of every object and the order of every
array. -/
theorem sameContent_sortSchemaKeys (hschema : schema.WellFormed) :
    SameContent true schema (sortSchemaKeysRecursive schema) := by
  induction schema using Value.inductionOn with
  | null => exact .null true
  | bool value => exact .bool true value
  | number literal => exact .number true literal
  | string text => exact .string true text
  | array items ih =>
      rw [sortSchemaKeysRecursive, sortSchemaItems_eq]
      refine .array (List.length_map _).symm fun position item other hitem hother => ?_
      rw [List.getElem?_map, hitem, Option.map_some, Option.some.injEq] at hother
      have hmem := List.mem_of_getElem? hitem
      rw [← hother]
      exact ih item hmem (Value.wellFormedElements_iff.mp hschema item hmem)
  | object fields ih =>
      rw [sortSchemaKeysRecursive, sortSchemaFields_eq]
      refine .object (fun name _ => ?_) fun name value other _ hvalue hother => ?_
      · rw [((List.perm_insertionSort FieldLe _).map Prod.fst).mem_iff, List.map_map]
        rfl
      · obtain ⟨field, hfield, heq⟩ :=
          List.mem_map.mp ((List.mem_insertionSort FieldLe).mp hother)
        cases heq
        have hsame : (field.1, value) = field := eq_of_name hschema.1 hvalue hfield rfl
        rw [show value = field.2 from congrArg Prod.snd hsame]
        exact ih field hfield (Value.wellFormedFields_iff.mp hschema.2 field hfield)

theorem sortSchemaKeys_eq_iff {left right : Value} (hleft : left.WellFormed)
    (hright : right.WellFormed) :
    sortSchemaKeysRecursive left = sortSchemaKeysRecursive right ↔ SameContent true left right := by
  rw [sortSchemaKeysRecursive_eq, sortSchemaKeysRecursive_eq]
  exact canonicalizeForHash_eq_iff hleft hright

theorem wellFormed_sortSchemaKeys (hschema : schema.WellFormed) :
    (sortSchemaKeysRecursive schema).WellFormed := by
  rw [sortSchemaKeysRecursive_eq]
  exact wellFormed_canonicalizeForHash hschema

/-- A sorted schema stays. -/
theorem sortSchemaKeys_idempotent (hschema : schema.WellFormed) :
    sortSchemaKeysRecursive (sortSchemaKeysRecursive schema) = sortSchemaKeysRecursive schema :=
  ((sortSchemaKeys_eq_iff hschema (wellFormed_sortSchemaKeys hschema)).mpr
    (sameContent_sortSchemaKeys hschema)).symm

theorem depth_sortSchemaKeys_le {limit : ℕ} (hschema : schema.tree.depth ≤ limit) :
    (sortSchemaKeysRecursive schema).tree.depth ≤ limit := by
  induction schema using Value.inductionOn generalizing limit with
  | null => exact hschema
  | bool value => exact hschema
  | number literal => exact hschema
  | string text => exact hschema
  | array items ih =>
      obtain ⟨inner, rfl⟩ :=
        Nat.exists_eq_add_of_le' ((Value.one_le_depth_array items).trans hschema)
      rw [sortSchemaKeysRecursive, sortSchemaItems_eq]
      refine Value.depth_array_le.mpr (List.forall_mem_map.mpr fun item hitem => ?_)
      exact ih item hitem (Value.depth_array_le.mp hschema item hitem)
  | object fields ih =>
      obtain ⟨inner, rfl⟩ :=
        Nat.exists_eq_add_of_le' ((Value.one_le_depth_object fields).trans hschema)
      rw [sortSchemaKeysRecursive, sortSchemaFields_eq]
      refine Value.depth_object_le.mpr fun field hfield => ?_
      obtain ⟨original, horiginal, rfl⟩ :=
        List.mem_map.mp ((List.mem_insertionSort FieldLe).mp hfield)
      exact ih original horiginal (Value.depth_object_le.mp hschema original horiginal)

end Legroom.CacheStabilization
