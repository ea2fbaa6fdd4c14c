import Legroom.Lib.Json.Sorted

/-!
# Canonical values

Before a value is hashed its fields are sorted and the `cache_control` markers
outside tool payloads are dropped.  Two values have one canonical form exactly if
they have the same content apart from the markers and the order of fields.
-/

namespace Legroom.CacheStabilization

open Json Utf8

def opaquePayloadKeys : List Utf8String :=
  ["input", "arguments", "json", "input_schema"].map constant

/-- Whether a field is kept. -/
def isKept (inOpaque : Bool) (name : Utf8String) : Bool :=
  inOpaque || name != constant "cache_control"

/-- Whether the value of a field is in an opaque payload. -/
def isOpaque (inOpaque : Bool) (name : Utf8String) : Bool :=
  inOpaque || opaquePayloadKeys.contains name

/-- The order of names. -/
def FieldLe (left right : Utf8String × Value) : Prop := left.1.bytes ≤ right.1.bytes

instance : DecidableRel FieldLe := fun left right =>
  inferInstanceAs (Decidable (left.1.bytes ≤ right.1.bytes))

instance : Std.Total FieldLe where
  total left right := List.le_total left.1.bytes right.1.bytes

instance : IsTrans (Utf8String × Value) FieldLe where
  trans _ _ _ := List.le_trans

mutual

/-- `canonicalize_for_hash`. -/
def canonicalizeForHash (inOpaque : Bool) : Value → Value
  | .object fields => .object ((canonicalFields inOpaque fields).insertionSort FieldLe)
  | .array items => .array (canonicalItems inOpaque items)
  | .null => .null
  | .bool value => .bool value
  | .number literal => .number literal
  | .string text => .string text

/-- The kept fields, each with its canonical value. -/
def canonicalFields (inOpaque : Bool) :
    List (Utf8String × Value) → List (Utf8String × Value)
  | [] => []
  | (name, value) :: fields =>
      if isKept inOpaque name then
        (name, canonicalizeForHash (isOpaque inOpaque name) value) ::
          canonicalFields inOpaque fields
      else canonicalFields inOpaque fields

def canonicalItems (inOpaque : Bool) : List Value → List Value
  | [] => []
  | value :: values => canonicalizeForHash inOpaque value :: canonicalItems inOpaque values

end

/-! ## Content -/

/-- The same value apart from the order of fields and the markers that are dropped. -/
inductive SameContent : Bool → Value → Value → Prop
  | null (inOpaque : Bool) : SameContent inOpaque .null .null
  | bool (inOpaque value : Bool) : SameContent inOpaque (.bool value) (.bool value)
  | number (inOpaque : Bool) (literal : Atom) :
      SameContent inOpaque (.number literal) (.number literal)
  | string (inOpaque : Bool) (text : Utf8String) :
      SameContent inOpaque (.string text) (.string text)
  | array {inOpaque : Bool} {left right : List Value} (hlength : left.length = right.length)
      (hitems : ∀ (position : ℕ) leftItem rightItem, left[position]? = some leftItem →
        right[position]? = some rightItem → SameContent inOpaque leftItem rightItem) :
      SameContent inOpaque (.array left) (.array right)
  | object {inOpaque : Bool} {left right : List (Utf8String × Value)}
      (hnames : ∀ name, isKept inOpaque name = true →
        (name ∈ left.map Prod.fst ↔ name ∈ right.map Prod.fst))
      (hvalues : ∀ name leftValue rightValue, isKept inOpaque name = true →
        (name, leftValue) ∈ left → (name, rightValue) ∈ right →
          SameContent (isOpaque inOpaque name) leftValue rightValue) :
      SameContent inOpaque (.object left) (.object right)

/-! ## Canonical forms -/

section

variable (inOpaque : Bool)

theorem canonicalItems_eq (items : List Value) :
    canonicalItems inOpaque items = items.map (canonicalizeForHash inOpaque) := by
  induction items with
  | nil => rfl
  | cons value values ih => rw [canonicalItems, ih, List.map_cons]

variable {fields : List (Utf8String × Value)}

theorem mem_canonicalFields {field : Utf8String × Value} :
    field ∈ canonicalFields inOpaque fields ↔ ∃ value, (field.1, value) ∈ fields ∧
      isKept inOpaque field.1 = true ∧
      field.2 = canonicalizeForHash (isOpaque inOpaque field.1) value := by
  induction fields with
  | nil => simp [canonicalFields]
  | cons first fields ih =>
      obtain ⟨name, value⟩ := first
      rw [canonicalFields]
      split_ifs with hkept
      · rw [List.mem_cons, ih]
        constructor
        · rintro (rfl | ⟨found, hfound, hrest⟩)
          · exact ⟨value, List.mem_cons_self, hkept, rfl⟩
          · exact ⟨found, List.mem_cons_of_mem _ hfound, hrest⟩
        · rintro ⟨found, hfound, hname, hvalue⟩
          rcases List.mem_cons.mp hfound with heq | hfound
          · cases heq
            exact .inl (Prod.ext rfl hvalue)
          · exact .inr ⟨found, hfound, hname, hvalue⟩
      · rw [ih]
        constructor
        · rintro ⟨found, hfound, hrest⟩
          exact ⟨found, List.mem_cons_of_mem _ hfound, hrest⟩
        · rintro ⟨found, hfound, hname, hvalue⟩
          rcases List.mem_cons.mp hfound with heq | hfound
          · cases heq
            exact absurd hname hkept
          · exact ⟨found, hfound, hname, hvalue⟩

theorem map_fst_canonicalFields (fields : List (Utf8String × Value)) :
    (canonicalFields inOpaque fields).map Prod.fst =
      (fields.map Prod.fst).filter (isKept inOpaque) := by
  induction fields with
  | nil => rfl
  | cons field fields ih =>
      obtain ⟨name, value⟩ := field
      rw [canonicalFields, List.map_cons, List.filter_cons]
      split_ifs
      · rw [List.map_cons, ih]
      · exact ih

theorem nodup_canonicalFields (hnodup : (fields.map Prod.fst).Nodup) :
    ((canonicalFields inOpaque fields).map Prod.fst).Nodup := by
  rw [map_fst_canonicalFields]
  exact hnodup.filter _

end

variable {fields : List (Utf8String × Value)}

theorem eq_of_name (hnodup : (fields.map Prod.fst).Nodup) {left right : Utf8String × Value}
    (hleft : left ∈ fields) (hright : right ∈ fields) (hname : left.1 = right.1) : left = right :=
  List.inj_on_of_nodup_map hnodup hleft hright hname

/-- Fields of distinct names are sorted into one list, in whatever order they come. -/
theorem insertionSort_eq_iff {left right : List (Utf8String × Value)}
    (hleft : (left.map Prod.fst).Nodup) (hright : (right.map Prod.fst).Nodup) :
    left.insertionSort FieldLe = right.insertionSort FieldLe ↔
      ∀ field, field ∈ left ↔ field ∈ right := by
  constructor
  · intro hsorted field
    rw [← List.mem_insertionSort FieldLe, hsorted, List.mem_insertionSort]
  · intro hmem
    have hperm : left.Perm right :=
      (List.perm_ext_iff_of_nodup (List.Nodup.of_map _ hleft) (List.Nodup.of_map _ hright)).mpr hmem
    have hsorted := List.perm_insertionSort FieldLe right
    exact Value.eq_of_pairwise_names (List.pairwise_insertionSort FieldLe left)
      (List.pairwise_insertionSort FieldLe right) ((hsorted.map Prod.fst).nodup_iff.mpr hright)
      ((List.perm_insertionSort FieldLe left).trans (hperm.trans hsorted.symm))

variable {inOpaque : Bool}

theorem mem_canonicalFields_of_same {others : List (Utf8String × Value)}
    {field : Utf8String × Value}
    (hnames : ∀ name, isKept inOpaque name = true →
      name ∈ fields.map Prod.fst → name ∈ others.map Prod.fst)
    (hcanonical : ∀ name value other, isKept inOpaque name = true →
      (name, value) ∈ fields → (name, other) ∈ others →
        canonicalizeForHash (isOpaque inOpaque name) value =
          canonicalizeForHash (isOpaque inOpaque name) other)
    (hfield : field ∈ canonicalFields inOpaque fields) :
    field ∈ canonicalFields inOpaque others := by
  obtain ⟨value, hvalue, hkept, hform⟩ := (mem_canonicalFields inOpaque).mp hfield
  obtain ⟨⟨name, other⟩, hother, hname⟩ :=
    List.mem_map.mp (hnames field.1 hkept (List.mem_map.mpr ⟨_, hvalue, rfl⟩))
  rw [show name = field.1 from hname] at hother
  refine (mem_canonicalFields inOpaque).mpr ⟨other, hother, hkept, ?_⟩
  rw [hform, hcanonical field.1 value other hkept hvalue hother]

/-- Canonical forms agree exactly if the contents do. -/
theorem canonicalizeForHash_eq_iff {left right : Value} (hleft : left.WellFormed)
    (hright : right.WellFormed) :
    canonicalizeForHash inOpaque left = canonicalizeForHash inOpaque right ↔
      SameContent inOpaque left right := by
  constructor
  · intro heq
    induction left using Value.inductionOn generalizing inOpaque right with
    | null =>
        cases right with
        | null => exact .null _
        | _ => simp [canonicalizeForHash] at heq
    | bool value =>
        cases right with
        | bool other =>
            cases heq
            exact .bool _ _
        | _ => simp [canonicalizeForHash] at heq
    | number literal =>
        cases right with
        | number other =>
            cases heq
            exact .number _ _
        | _ => simp [canonicalizeForHash] at heq
    | string text =>
        cases right with
        | string other =>
            cases heq
            exact .string _ _
        | _ => simp [canonicalizeForHash] at heq
    | array items ih =>
        cases right with
        | array others =>
            rw [canonicalizeForHash, canonicalizeForHash, canonicalItems_eq, canonicalItems_eq,
              Value.array.injEq] at heq
            refine .array (by simpa using congrArg List.length heq)
              fun position item other hitem hother => ?_
            have hat := congrArg (·[position]?) heq
            simp only [List.getElem?_map, hitem, hother, Option.map_some, Option.some.injEq] at hat
            have hmem := List.mem_of_getElem? hitem
            exact ih item hmem (Value.wellFormedElements_iff.mp hleft item hmem)
              (Value.wellFormedElements_iff.mp hright other (List.mem_of_getElem? hother)) hat
        | _ => simp [canonicalizeForHash] at heq
    | object fields ih =>
        cases right with
        | object others =>
            rw [canonicalizeForHash, canonicalizeForHash, Value.object.injEq,
              insertionSort_eq_iff (nodup_canonicalFields inOpaque hleft.1)
                (nodup_canonicalFields inOpaque hright.1)] at heq
            refine .object (fun name hkept => ?_) fun name value other hkept hvalue hother => ?_
            · rw [← and_iff_left (a := name ∈ fields.map Prod.fst) hkept,
                ← and_iff_left (a := name ∈ others.map Prod.fst) hkept, ← List.mem_filter,
                ← List.mem_filter, ← map_fst_canonicalFields, ← map_fst_canonicalFields]
              simp only [List.mem_map, heq]
            · have hcanonical : (name, canonicalizeForHash (isOpaque inOpaque name) value) ∈
                  canonicalFields inOpaque others :=
                (heq _).mp ((mem_canonicalFields inOpaque).mpr ⟨value, hvalue, hkept, rfl⟩)
              obtain ⟨found, hfound, -, hsame⟩ := (mem_canonicalFields inOpaque).mp hcanonical
              have hfield := eq_of_name hright.1 hfound hother rfl
              cases hfield
              exact ih (name, value) hvalue (Value.wellFormedFields_iff.mp hleft.2 _ hvalue)
                (Value.wellFormedFields_iff.mp hright.2 _ hother) hsame
        | _ => simp [canonicalizeForHash] at heq
  · intro hsame
    induction hsame with
    | null => rfl
    | bool => rfl
    | number => rfl
    | string => rfl
    | @array inOpaque items others hlength hitems ih =>
        rw [canonicalizeForHash, canonicalizeForHash, canonicalItems_eq, canonicalItems_eq,
          Value.array.injEq]
        refine List.ext_getElem (by simpa using hlength) fun position hitem hother => ?_
        rw [List.length_map] at hitem hother
        rw [List.getElem_map, List.getElem_map]
        exact ih position _ _ (List.getElem?_eq_getElem hitem) (List.getElem?_eq_getElem hother)
          (Value.wellFormedElements_iff.mp hleft _ (List.getElem_mem hitem))
          (Value.wellFormedElements_iff.mp hright _ (List.getElem_mem hother))
    | @object inOpaque fields others hnames hvalues ih =>
        rw [canonicalizeForHash, canonicalizeForHash, Value.object.injEq,
          insertionSort_eq_iff (nodup_canonicalFields inOpaque hleft.1)
            (nodup_canonicalFields inOpaque hright.1)]
        have hcanonical : ∀ name value other, isKept inOpaque name = true →
            (name, value) ∈ fields → (name, other) ∈ others →
              canonicalizeForHash (isOpaque inOpaque name) value =
                canonicalizeForHash (isOpaque inOpaque name) other :=
          fun name value other hkept hvalue hother => ih name value other hkept hvalue hother
            (Value.wellFormedFields_iff.mp hleft.2 _ hvalue)
            (Value.wellFormedFields_iff.mp hright.2 _ hother)
        exact fun field =>
          ⟨mem_canonicalFields_of_same (fun name hkept => (hnames name hkept).mp) hcanonical,
            mem_canonicalFields_of_same (fun name hkept => (hnames name hkept).mpr)
              fun name other value hkept hother hvalue =>
                (hcanonical name value other hkept hvalue hother).symm⟩

theorem wellFormed_canonicalizeForHash {value : Value} (hvalue : value.WellFormed) :
    (canonicalizeForHash inOpaque value).WellFormed := by
  induction value using Value.inductionOn generalizing inOpaque with
  | null => trivial
  | bool value => trivial
  | number literal => exact hvalue
  | string text => trivial
  | array items ih =>
      rw [canonicalizeForHash, canonicalItems_eq]
      refine Value.wellFormedElements_iff.mpr fun element helement => ?_
      obtain ⟨item, hitem, rfl⟩ := List.mem_map.mp helement
      exact ih item hitem (Value.wellFormedElements_iff.mp hvalue item hitem)
  | object fields ih =>
      rw [canonicalizeForHash]
      have hperm := List.perm_insertionSort FieldLe (canonicalFields inOpaque fields)
      refine ⟨(hperm.map Prod.fst).nodup_iff.mpr (nodup_canonicalFields inOpaque hvalue.1),
        Value.wellFormedFields_iff.mpr fun field hfield => ?_⟩
      obtain ⟨original, horiginal, -, hcanonical⟩ :=
        (mem_canonicalFields inOpaque).mp ((List.mem_insertionSort FieldLe).mp hfield)
      rw [hcanonical]
      exact ih _ horiginal (Value.wellFormedFields_iff.mp hvalue.2 _ horiginal)

end Legroom.CacheStabilization
