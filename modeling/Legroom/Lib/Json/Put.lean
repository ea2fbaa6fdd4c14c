import Legroom.Lib.Json.Written

/-!
# Fields written into objects

`put` writes one field of an object.  A field that is there keeps its place, a new
one comes last; the other fields stay.  What is written nests no deeper than its
parts, so a value that was read is small enough to be read again.
-/

namespace Legroom.Json

open Utf8

namespace Value

/-- `Map::insert`; on a field that is there, the assignment through `get_mut`. -/
def put (value : Value) (name : Utf8String) (new : Value) : Value :=
  match value with
  | .object fields => .object (insertField fields (name, new))
  | value => value

/-! ## Reading what was written -/

variable (fields : List (Utf8String × Value))

theorem find?_insertField (field : Utf8String × Value) (name : Utf8String) :
    (insertField fields field).find? (fun other => decide (other.1 = name)) =
      if field.1 = name then some field
      else fields.find? fun other => decide (other.1 = name) := by
  induction fields with
  | nil => by_cases hname : field.1 = name <;> simp [insertField, hname]
  | cons first fields ih =>
      obtain ⟨key, value⟩ := first
      rw [insertField]
      by_cases hkey : key = field.1
      · subst hkey
        by_cases hname : field.1 = name
        · subst hname
          simp
        · simp [hname]
      · rw [if_neg hkey, List.find?_cons, List.find?_cons, ih]
        by_cases hname : key = name
        · subst hname
          simp [Ne.symm hkey]
        · simp [hname]

variable {value new : Value} {name other : Utf8String}

theorem get_put_of_ne (hother : other ≠ name) :
    (value.put name new).get other = value.get other := by
  cases value with
  | object fields => simp [put, get, find?_insertField, Ne.symm hother]
  | _ => rfl

variable {found : Value}

theorem get_put_self (hfound : value.get name = some found) (new : Value) :
    (value.put name new).get name = some new := by
  cases value with
  | object fields => simp [put, get, find?_insertField]
  | _ => cases hfound

theorem insertField_insertField (name : Utf8String) (old new : Value) :
    insertField (insertField fields (name, old)) (name, new) = insertField fields (name, new) := by
  induction fields with
  | nil => simp [insertField]
  | cons first fields ih =>
      obtain ⟨key, value⟩ := first
      by_cases hkey : key = name
      · simp [insertField, hkey]
      · simp [insertField, hkey, ih]

/-- The last of two assignments to a field stays. -/
theorem put_put (value old new : Value) (name : Utf8String) :
    (value.put name old).put name new = value.put name new := by
  cases value with
  | object fields => simp [put, insertField_insertField]
  | _ => rfl

variable {fields : List (Utf8String × Value)}

theorem insertField_of_find? {field : Utf8String × Value}
    (hfield : fields.find? (fun other => decide (other.1 = name)) = some field) :
    insertField fields (name, field.2) = fields := by
  induction fields with
  | nil => cases hfield
  | cons first fields ih =>
      obtain ⟨key, value⟩ := first
      by_cases hkey : key = name
      · simp only [hkey, List.find?_cons, decide_true, Option.some.injEq] at hfield
        rw [insertField, if_pos hkey, ← hfield, hkey]
      · simp only [List.find?_cons, hkey, decide_false] at hfield
        rw [insertField, if_neg hkey, ih hfield]

/-- Writing what is there changes nothing. -/
theorem put_get (hfound : value.get name = some found) : value.put name found = value := by
  cases value with
  | object fields =>
      obtain ⟨field, hfield, rfl⟩ := Option.map_eq_some_iff.mp hfound
      rw [put, insertField_of_find? hfield]
  | _ => cases hfound

theorem insertField_comm (hother : other ≠ name) (hmem : name ∈ fields.map Prod.fst)
    (value : Value) :
    insertField (insertField fields (other, value)) (name, new) =
      insertField (insertField fields (name, new)) (other, value) := by
  induction fields with
  | nil => cases hmem
  | cons first fields ih =>
      obtain ⟨key, old⟩ := first
      by_cases hkey : key = name
      · subst hkey
        simp [insertField, hother.symm]
      · have hmem : name ∈ fields.map Prod.fst := by
          simpa [Ne.symm hkey] using hmem
        by_cases hkeyOther : key = other
        · subst hkeyOther
          simp [insertField, hother]
        · simp [insertField, hkey, hkeyOther, ih hmem]

/-- An assignment to a field that is there and an insertion of another name can change
places. -/
theorem put_comm (hother : other ≠ name) (hfound : value.get name = some found)
    (new added : Value) :
    (value.put other added).put name new = (value.put name new).put other added := by
  cases value with
  | object fields =>
      obtain ⟨field, hfield, rfl⟩ := Option.map_eq_some_iff.mp hfound
      have hmem : name ∈ fields.map Prod.fst := by
        refine List.mem_map.mpr ⟨field, List.mem_of_find?_eq_some hfield, ?_⟩
        simpa using List.find?_some hfield
      rw [put, put, put, put, insertField_comm hother hmem]
  | _ => cases hfound

theorem WellFormed.put (hvalue : value.WellFormed) (name : Utf8String) (hnew : new.WellFormed) :
    (value.put name new).WellFormed := by
  cases value with
  | object fields =>
      refine ⟨nodup_insertField _ hvalue.1, wellFormedFields_iff.mpr fun field hfield => ?_⟩
      rcases mem_insertField hfield with hfield | rfl
      · exact wellFormedFields_iff.mp hvalue.2 field hfield
      · exact hnew
  | _ => exact hvalue

end Value

/-! ## Nesting -/

namespace Tree

theorem depth_elementsOf_le {limit : ℕ} {value : Tree .value} {values : List (Tree .value)} :
    (elementsOf value values).depth ≤ limit ↔
      ∀ element ∈ value :: values, element.depth ≤ limit := by
  induction values generalizing value with
  | nil => simp [elementsOf, depth]
  | cons next values ih =>
      rw [elementsOf, depth, max_le_iff, ih]
      simp

theorem depth_membersOf_le {limit : ℕ} {member : Utf8String × Tree .value}
    {members : List (Utf8String × Tree .value)} :
    (membersOf member members).depth ≤ limit ↔
      ∀ field ∈ member :: members, field.2.depth ≤ limit := by
  induction members generalizing member with
  | nil => simp [membersOf, depth]
  | cons next members ih =>
      rw [membersOf, depth, max_le_iff, ih]
      simp

end Tree

namespace Value

theorem one_le_depth_array (elements : List Value) : 1 ≤ (array elements).tree.depth := by
  rw [tree, treeElements_eq]
  cases elements with
  | nil => exact le_rfl
  | cons element elements => exact Nat.le_add_left 1 _

theorem one_le_depth_object (fields : List (Utf8String × Value)) :
    1 ≤ (object fields).tree.depth := by
  rw [tree, treeFields_eq]
  cases fields with
  | nil => exact le_rfl
  | cons field fields => exact Nat.le_add_left 1 _

variable {limit : ℕ}

theorem depth_array_le {elements : List Value} :
    (array elements).tree.depth ≤ limit + 1 ↔ ∀ element ∈ elements, element.tree.depth ≤ limit := by
  rw [tree, treeElements_eq]
  cases elements with
  | nil => simp [Tree.arrayOf, Tree.depth]
  | cons element elements =>
      rw [List.map_cons, Tree.arrayOf, Tree.depth, Nat.add_le_add_iff_right,
        Tree.depth_elementsOf_le]
      simp

theorem depth_object_le {fields : List (Utf8String × Value)} :
    (object fields).tree.depth ≤ limit + 1 ↔ ∀ field ∈ fields, field.2.tree.depth ≤ limit := by
  rw [tree, treeFields_eq]
  cases fields with
  | nil => simp [Tree.objectOf, Tree.depth]
  | cons field fields =>
      rw [List.map_cons, Tree.objectOf, Tree.depth, Nat.add_le_add_iff_right,
        Tree.depth_membersOf_le]
      simp only [List.forall_mem_cons, List.forall_mem_map]

theorem depth_put_le {value new : Value} (name : Utf8String) (hvalue : value.tree.depth ≤ limit + 1)
    (hnew : new.tree.depth ≤ limit) : (value.put name new).tree.depth ≤ limit + 1 := by
  cases value with
  | object fields =>
      refine depth_object_le.mpr fun field hfield => ?_
      rcases mem_insertField hfield with hfield | rfl
      · exact depth_object_le.mp hvalue field hfield
      · exact hnew
  | _ => exact hvalue

theorem depth_get_le {value found : Value} {name : Utf8String}
    (hvalue : value.tree.depth ≤ limit + 1) (hfound : value.get name = some found) :
    found.tree.depth ≤ limit := by
  cases value with
  | object fields =>
      obtain ⟨field, hfield, rfl⟩ := Option.map_eq_some_iff.mp hfound
      exact depth_object_le.mp hvalue field (List.mem_of_find?_eq_some hfield)
  | _ => cases hfound

theorem mem_of_mem_collect {members : List (Utf8String × Value)} {field : Utf8String × Value}
    (hfield : field ∈ collect members) : field ∈ members := by
  suffices hfold : ∀ fields : List (Utf8String × Value),
      field ∈ members.foldl insertField fields → field ∈ fields ∨ field ∈ members from
    (hfold [] hfield).resolve_left List.not_mem_nil
  clear hfield
  induction members with
  | nil => exact fun fields hfield => .inl hfield
  | cons member members ih =>
      intro fields hfield
      rcases ih _ hfield with hfield | hfield
      · rcases mem_insertField hfield with hfield | rfl
        · exact .inl hfield
        · exact .inr List.mem_cons_self
      · exact .inr (List.mem_cons_of_mem _ hfield)

end Value

/-- No part of a meaning nests deeper than `limit`. -/
def Meaning.Within (limit : ℕ) : (part : Part) → Meaning part → Prop
  | .value, value => (Value.tree value).depth ≤ limit
  | .elements, values => ∀ value ∈ values, (Value.tree value).depth ≤ limit
  | .members, fields => ∀ field ∈ fields, (Value.tree (Prod.snd field)).depth ≤ limit

theorem Atom.depth_value (token : Atom) : token.value.tree.depth = 0 := by
  rw [Atom.value]
  split_ifs <;> rfl

/-- A value is written with no more nesting than it was read with. -/
theorem Tree.within_denote {part : Part} {tree : Tree part} {meaning : Meaning part}
    (hdenote : tree.denote = some meaning) {limit : ℕ} (hdepth : tree.depth ≤ limit) :
    Meaning.Within limit part meaning := by
  induction tree generalizing limit with
  | atom token =>
      cases hdenote
      exact token.depth_value.trans_le (Nat.zero_le limit)
  | string lit =>
      obtain ⟨text, -, rfl⟩ := Option.map_eq_some_iff.mp hdenote
      exact Nat.zero_le limit
  | emptyArray space =>
      cases hdenote
      exact hdepth
  | array elements ih =>
      obtain ⟨values, hvalues, rfl⟩ := Option.map_eq_some_iff.mp hdenote
      rw [depth] at hdepth
      obtain ⟨inner, rfl⟩ := Nat.exists_eq_add_of_le' ((Nat.le_add_left 1 _).trans hdepth)
      rw [Nat.add_le_add_iff_right] at hdepth
      exact Value.depth_array_le.mpr (ih hvalues hdepth)
  | emptyObject space =>
      cases hdenote
      exact hdepth
  | object members ih =>
      obtain ⟨fields, hfields, rfl⟩ := Option.map_eq_some_iff.mp hdenote
      rw [depth] at hdepth
      obtain ⟨inner, rfl⟩ := Nat.exists_eq_add_of_le' ((Nat.le_add_left 1 _).trans hdepth)
      rw [Nat.add_le_add_iff_right] at hdepth
      exact Value.depth_object_le.mpr fun field hfield =>
        ih hfields hdepth field (Value.mem_of_mem_collect hfield)
  | lastElement before value after ih =>
      obtain ⟨meaning, hvalue, rfl⟩ := Option.map_eq_some_iff.mp hdenote
      exact List.forall_mem_singleton.mpr (ih hvalue hdepth)
  | element before value after more ihValue ihMore =>
      simp only [denote, bind, Option.bind_eq_some_iff] at hdenote
      obtain ⟨meaning, hvalue, values, hmore, hcons⟩ := hdenote
      cases hcons
      rw [depth, max_le_iff] at hdepth
      exact List.forall_mem_cons.mpr ⟨ihValue hvalue hdepth.1, ihMore hmore hdepth.2⟩
  | lastMember key value after ih =>
      simp only [denote, bind, Option.bind_eq_some_iff] at hdenote
      obtain ⟨name, -, meaning, hvalue, hsingle⟩ := hdenote
      cases hsingle
      exact List.forall_mem_singleton.mpr (ih hvalue hdepth)
  | member key value after more ihValue ihMore =>
      simp only [denote, bind, Option.bind_eq_some_iff] at hdenote
      obtain ⟨name, -, meaning, hvalue, fields, hmore, hcons⟩ := hdenote
      cases hcons
      rw [depth, max_le_iff] at hdepth
      exact List.forall_mem_cons.mpr ⟨ihValue hvalue hdepth.1, ihMore hmore hdepth.2⟩

theorem depth_valueFromSlice {bytes : Bytes} {value : Value}
    (hvalue : valueFromSlice bytes = some value) : value.tree.depth < recursionLimit := by
  obtain ⟨document, -, hdepth, hdenote⟩ := valueFromSlice_eq_some_iff.mp hvalue
  exact (Tree.within_denote hdenote le_rfl).trans_lt hdepth

/-- What is written is read back, unless it nests too deep. -/
theorem valueFromSlice_toJson {value : Value} (hvalue : value.WellFormed)
    (hdepth : value.tree.depth < recursionLimit) :
    valueFromSlice value.toJson.bytes = some value := by
  refine valueFromSlice_eq_some_iff.mpr
    ⟨⟨.empty, value.tree, .empty⟩, ?_, hdepth, Value.denote_tree hvalue⟩
  simp [Document.render, Space.empty, Value.render_tree]

end Legroom.Json
