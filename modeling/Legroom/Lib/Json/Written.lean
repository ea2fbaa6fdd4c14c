import Legroom.Lib.Json.Writer

/-!
# What is written is read back

A value as a parser returns it has no two fields of one name and no keyword for a
number.  Such a value is the value of the text it is written as, so two values
with one text are equal.
-/

namespace Legroom.Json

open Utf8

namespace Value

theorem inductionOn {motive : Value → Prop} (null : motive .null)
    (bool : ∀ value, motive (.bool value)) (number : ∀ literal, motive (.number literal))
    (string : ∀ text, motive (.string text))
    (array : ∀ elements, (∀ element ∈ elements, motive element) → motive (.array elements))
    (object : ∀ fields, (∀ field ∈ fields, motive field.2) → motive (.object fields))
    (value : Value) : motive value :=
  @Value.rec motive (fun elements => ∀ element ∈ elements, motive element)
    (fun fields => ∀ field ∈ fields, motive field.2) (fun field => motive field.2)
    null bool number string array object
    (fun _ hnil => absurd hnil List.not_mem_nil)
    (fun _ _ hhead htail => List.forall_mem_cons.mpr ⟨hhead, htail⟩)
    (fun _ hnil => absurd hnil List.not_mem_nil)
    (fun _ _ hhead htail => List.forall_mem_cons.mpr ⟨hhead, htail⟩)
    (fun _ _ hvalue => hvalue) value

/-! ## Well-formed values -/

mutual

/-- The values `serde_json::Value` can hold. -/
def WellFormed : Value → Prop
  | .number literal => literal.value = .number literal
  | .array elements => WellFormedElements elements
  | .object fields => (fields.map Prod.fst).Nodup ∧ WellFormedFields fields
  | _ => True

def WellFormedElements : List Value → Prop
  | [] => True
  | value :: values => value.WellFormed ∧ WellFormedElements values

def WellFormedFields : List (Utf8String × Value) → Prop
  | [] => True
  | (_, value) :: fields => value.WellFormed ∧ WellFormedFields fields

end

theorem wellFormedElements_iff {elements : List Value} :
    WellFormedElements elements ↔ ∀ element ∈ elements, element.WellFormed := by
  induction elements with
  | nil => simp [WellFormedElements]
  | cons value values ih => simp [WellFormedElements, ih]

variable {fields : List (Utf8String × Value)}

theorem wellFormedFields_iff : WellFormedFields fields ↔ ∀ field ∈ fields, field.2.WellFormed := by
  induction fields with
  | nil => simp [WellFormedFields]
  | cons field fields ih =>
      obtain ⟨name, value⟩ := field
      simp [WellFormedFields, ih]

theorem WellFormed.of_get {value found : Value} {name : Utf8String}
    (hvalue : value.WellFormed) (hfound : value.get name = some found) : found.WellFormed := by
  cases value with
  | object fields =>
      obtain ⟨field, hfield, rfl⟩ := Option.map_eq_some_iff.mp hfound
      exact wellFormedFields_iff.mp hvalue.2 field (List.mem_of_find?_eq_some hfield)
  | _ => cases hfound

theorem mem_insertField {field other : Utf8String × Value}
    (hother : other ∈ insertField fields field) : other ∈ fields ∨ other = field := by
  induction fields with
  | nil => exact .inr (List.mem_singleton.mp hother)
  | cons first fields ih =>
      rw [insertField] at hother
      split_ifs at hother with hname
      · rcases List.mem_cons.mp hother with rfl | hother
        · exact .inr (Prod.ext hname rfl)
        · exact .inl (List.mem_cons_of_mem _ hother)
      · rcases List.mem_cons.mp hother with rfl | hother
        · exact .inl List.mem_cons_self
        · exact (ih hother).imp_left (List.mem_cons_of_mem _)

theorem map_fst_insertField (fields : List (Utf8String × Value)) (field : Utf8String × Value) :
    (insertField fields field).map Prod.fst =
      if field.1 ∈ fields.map Prod.fst then fields.map Prod.fst
      else fields.map Prod.fst ++ [field.1] := by
  induction fields with
  | nil => rfl
  | cons first fields ih =>
      obtain ⟨name, value⟩ := first
      rw [insertField]
      by_cases hname : name = field.1
      · simp [hname]
      · have hname' : field.1 ≠ name := fun heq => hname heq.symm
        rw [if_neg hname, List.map_cons, ih]
        by_cases hmem : field.1 ∈ fields.map Prod.fst <;> simp [hname', hmem]

theorem nodup_insertField (field : Utf8String × Value) (hnodup : (fields.map Prod.fst).Nodup) :
    ((insertField fields field).map Prod.fst).Nodup := by
  rw [map_fst_insertField]
  split_ifs with hmem
  · exact hnodup
  · refine List.nodup_append.mpr ⟨hnodup, by simp, fun name hname other hother => ?_⟩
    rintro rfl
    rw [List.mem_singleton.mp hother] at hname
    exact hmem hname

theorem wellFormed_collect {members : List (Utf8String × Value)}
    (hmembers : ∀ member ∈ members, member.2.WellFormed) :
    (Value.object (collect members)).WellFormed := by
  suffices hfold : ∀ fields : List (Utf8String × Value), (fields.map Prod.fst).Nodup →
      (∀ field ∈ fields, field.2.WellFormed) →
      (Value.object (members.foldl insertField fields)).WellFormed from
    hfold [] List.nodup_nil fun _ hfield => absurd hfield List.not_mem_nil
  induction members with
  | nil => exact fun fields hnodup hfields => ⟨hnodup, wellFormedFields_iff.mpr hfields⟩
  | cons member members ih =>
      intro fields hnodup hfields
      obtain ⟨hmember, hmembers⟩ := List.forall_mem_cons.mp hmembers
      refine ih hmembers _ (nodup_insertField member hnodup) fun field hfield => ?_
      rcases mem_insertField hfield with hfield | rfl
      · exact hfields field hfield
      · exact hmember

/-- Fields of distinct names are collected as they are. -/
theorem collect_of_nodup (hnodup : (fields.map Prod.fst).Nodup) : collect fields = fields := by
  suffices hfold : ∀ front : List (Utf8String × Value),
      ((front ++ fields).map Prod.fst).Nodup → fields.foldl insertField front = front ++ fields from
    hfold [] hnodup
  clear hnodup
  induction fields with
  | nil => exact fun front _ => (List.append_nil front).symm
  | cons field fields ih =>
      intro front hnodup
      have hfront : field.1 ∉ front.map Prod.fst := by
        rw [List.map_append, List.map_cons] at hnodup
        exact fun hmem => (List.nodup_append.mp hnodup).2.2 _ hmem _ List.mem_cons_self rfl
      have hinsert : insertField front field = front ++ [field] := by
        clear ih hnodup
        induction front with
        | nil => rfl
        | cons first front ih =>
            rw [List.map_cons, List.mem_cons, not_or] at hfront
            rw [insertField, if_neg (Ne.symm hfront.1), ih hfront.2]
            rfl
      rw [List.foldl_cons, hinsert, ih (front ++ [field]) (by simpa using hnodup)]
      simp

end Value

/-! ## Parsed values -/

def Meaning.WellFormed : (part : Part) → Meaning part → Prop
  | .value, value => Value.WellFormed value
  | .elements, values => ∀ value ∈ values, Value.WellFormed value
  | .members, fields => ∀ field ∈ fields, Value.WellFormed (Prod.snd field)

theorem Atom.wellFormed_value (token : Atom) : token.value.WellFormed := by
  by_cases hnumber : token.value = .number token
  · rw [hnumber]
    exact hnumber
  · rw [Atom.value] at hnumber ⊢
    split_ifs at hnumber ⊢ <;> trivial

theorem Tree.wellFormed_denote {part : Part} {tree : Tree part} {meaning : Meaning part}
    (hdenote : tree.denote = some meaning) : Meaning.WellFormed part meaning := by
  induction tree with
  | atom token =>
      cases hdenote
      exact token.wellFormed_value
  | string lit =>
      obtain ⟨text, -, rfl⟩ := Option.map_eq_some_iff.mp hdenote
      trivial
  | emptyArray space =>
      cases hdenote
      trivial
  | array elements ih =>
      obtain ⟨values, hvalues, rfl⟩ := Option.map_eq_some_iff.mp hdenote
      exact Value.wellFormedElements_iff.mpr (ih hvalues)
  | emptyObject space =>
      cases hdenote
      exact ⟨List.nodup_nil, trivial⟩
  | object members ih =>
      obtain ⟨fields, hfields, rfl⟩ := Option.map_eq_some_iff.mp hdenote
      exact Value.wellFormed_collect (ih hfields)
  | lastElement before value after ih =>
      obtain ⟨meaning, hvalue, rfl⟩ := Option.map_eq_some_iff.mp hdenote
      exact List.forall_mem_singleton.mpr (ih hvalue)
  | element before value after more ihValue ihMore =>
      simp only [denote, bind, Option.bind_eq_some_iff] at hdenote
      obtain ⟨meaning, hvalue, values, hmore, hcons⟩ := hdenote
      cases hcons
      exact List.forall_mem_cons.mpr ⟨ihValue hvalue, ihMore hmore⟩
  | lastMember key value after ih =>
      simp only [denote, bind, Option.bind_eq_some_iff] at hdenote
      obtain ⟨name, -, meaning, hvalue, hsingle⟩ := hdenote
      cases hsingle
      exact List.forall_mem_singleton.mpr (ih hvalue)
  | member key value after more ihValue ihMore =>
      simp only [denote, bind, Option.bind_eq_some_iff] at hdenote
      obtain ⟨name, -, meaning, hvalue, fields, hmore, hcons⟩ := hdenote
      cases hcons
      exact List.forall_mem_cons.mpr ⟨ihValue hvalue, ihMore hmore⟩

/-- A value that was read from a text is well formed. -/
theorem wellFormed_valueFromSlice {bytes : Bytes} {value : Value}
    (hvalue : valueFromSlice bytes = some value) : value.WellFormed := by
  obtain ⟨document, -, -, hdenote⟩ := valueFromSlice_eq_some_iff.mp hvalue
  exact Tree.wellFormed_denote hdenote

/-! ## The tree that is written -/

def nullAtom : Atom := ⟨ascii "null", by decide⟩
def trueAtom : Atom := ⟨ascii "true", by decide⟩
def falseAtom : Atom := ⟨ascii "false", by decide⟩

/-- How a value is laid out: how its strings are written, and the white space behind its
commas and colons. -/
structure Layout where
  literal : Utf8String → StringLit
  gap : Space
  reads : ∀ text, (literal text).text = some text

/-- `serde_json::to_string`. -/
def Layout.compact : Layout := ⟨quote, .empty, text_quote⟩

def Layout.key (layout : Layout) (before : Space) (name : Utf8String) : Key :=
  ⟨before, layout.literal name, .empty, layout.gap⟩

namespace Tree

def elementsIn (layout : Layout) (before : Space) :
    Tree .value → List (Tree .value) → Tree .elements
  | value, [] => .lastElement before value .empty
  | value, next :: values =>
      .element before value .empty (elementsIn layout layout.gap next values)

def membersIn (layout : Layout) (before : Space) :
    Utf8String × Tree .value → List (Utf8String × Tree .value) → Tree .members
  | (name, value), [] => .lastMember (layout.key before name) value .empty
  | (name, value), next :: members =>
      .member (layout.key before name) value .empty (membersIn layout layout.gap next members)

def arrayIn (layout : Layout) : List (Tree .value) → Tree .value
  | [] => .emptyArray .empty
  | value :: values => .array (elementsIn layout .empty value values)

def objectIn (layout : Layout) : List (Utf8String × Tree .value) → Tree .value
  | [] => .emptyObject .empty
  | first :: members => .object (membersIn layout .empty first members)

/-- An array without white space. -/
def elementsOf : Tree .value → List (Tree .value) → Tree .elements
  | value, [] => .lastElement .empty value .empty
  | value, next :: values => .element .empty value .empty (elementsOf next values)

def compactKey (name : Utf8String) : Key := ⟨.empty, quote name, .empty, .empty⟩

/-- An object without white space. -/
def membersOf : Utf8String × Tree .value → List (Utf8String × Tree .value) → Tree .members
  | (name, value), [] => .lastMember (compactKey name) value .empty
  | (name, value), next :: members =>
      .member (compactKey name) value .empty (membersOf next members)

def arrayOf : List (Tree .value) → Tree .value
  | [] => .emptyArray .empty
  | value :: values => .array (elementsOf value values)

def objectOf : List (Utf8String × Tree .value) → Tree .value
  | [] => .emptyObject .empty
  | first :: members => .object (membersOf first members)

end Tree

namespace Value

mutual

/-- The tree of the compact text. -/
def tree : Value → Tree .value
  | .null => .atom nullAtom
  | .bool true => .atom trueAtom
  | .bool false => .atom falseAtom
  | .number literal => .atom literal
  | .string text => .string (quote text)
  | .array elements => Tree.arrayOf (treeElements elements)
  | .object fields => Tree.objectOf (treeFields fields)

def treeElements : List Value → List (Tree .value)
  | [] => []
  | value :: values => value.tree :: treeElements values

def treeFields : List (Utf8String × Value) → List (Utf8String × Tree .value)
  | [] => []
  | (name, value) :: fields => (name, value.tree) :: treeFields fields

end

mutual

/-- The tree of the text in a layout. -/
def treeIn (layout : Layout) : Value → Tree .value
  | .null => .atom nullAtom
  | .bool true => .atom trueAtom
  | .bool false => .atom falseAtom
  | .number literal => .atom literal
  | .string text => .string (layout.literal text)
  | .array elements => Tree.arrayIn layout (treeElementsIn layout elements)
  | .object fields => Tree.objectIn layout (treeFieldsIn layout fields)

def treeElementsIn (layout : Layout) : List Value → List (Tree .value)
  | [] => []
  | value :: values => value.treeIn layout :: treeElementsIn layout values

def treeFieldsIn (layout : Layout) :
    List (Utf8String × Value) → List (Utf8String × Tree .value)
  | [] => []
  | (name, value) :: fields => (name, value.treeIn layout) :: treeFieldsIn layout fields

end

theorem treeElementsIn_eq (layout : Layout) (elements : List Value) :
    treeElementsIn layout elements = elements.map (treeIn layout) := by
  induction elements with
  | nil => rfl
  | cons value values ih => rw [treeElementsIn, ih, List.map_cons]

theorem treeFieldsIn_eq (layout : Layout) (fields : List (Utf8String × Value)) :
    treeFieldsIn layout fields = fields.map fun field => (field.1, field.2.treeIn layout) := by
  induction fields with
  | nil => rfl
  | cons field fields ih => rw [treeFieldsIn, ih, List.map_cons]

theorem treeElements_eq (elements : List Value) : treeElements elements = elements.map tree := by
  induction elements with
  | nil => rfl
  | cons value values ih => rw [treeElements, ih, List.map_cons]

theorem treeFields_eq (fields : List (Utf8String × Value)) :
    treeFields fields = fields.map fun field => (field.1, field.2.tree) := by
  induction fields with
  | nil => rfl
  | cons field fields ih => rw [treeFields, ih, List.map_cons]

theorem dumpsElements_eq (fmt : JsonFmt) (elements : List Value) :
    dumpsElements fmt elements = elements.map (dumps fmt) := by
  induction elements with
  | nil => rfl
  | cons value values ih => rw [dumpsElements, ih, List.map_cons]

theorem dumpsFields_eq (fmt : JsonFmt) (fields : List (Utf8String × Value)) :
    dumpsFields fmt fields = fields.map fun field => (field.1, field.2.dumps fmt) := by
  induction fields with
  | nil => rfl
  | cons field fields ih => rw [dumpsFields, ih, List.map_cons]

end Value

theorem bytes_joined_cons (separator text next : Utf8String) (texts : List Utf8String) :
    (joined separator (text :: next :: texts)).bytes =
      text.bytes ++ (separator.bytes ++ (joined separator (next :: texts)).bytes) := by
  simp [joined]

namespace Tree

theorem elementsOf_eq (value : Tree .value) (values : List (Tree .value)) :
    elementsOf value values = elementsIn .compact .empty value values := by
  induction values generalizing value with
  | nil => rfl
  | cons next values ih => rw [elementsOf, ih, elementsIn, Layout.compact]

theorem membersOf_eq (member : Utf8String × Tree .value)
    (members : List (Utf8String × Tree .value)) :
    membersOf member members = membersIn .compact .empty member members := by
  induction members generalizing member with
  | nil => rfl
  | cons next members ih => rw [membersOf, ih, membersIn, compactKey, Layout.key, Layout.compact]

variable {layout : Layout} {before : Space}
variable {separator : Utf8String} {texts : List Utf8String}

theorem render_elementsIn {value : Tree .value} {values : List (Tree .value)}
    (hseparator : separator.bytes = comma :: layout.gap.bytes)
    (htexts : texts.map Utf8String.bytes = (value :: values).map render) :
    (elementsIn layout before value values).render =
      before.bytes ++ ((joined separator texts).bytes ++ [closeBracket]) := by
  induction values generalizing before value texts with
  | nil =>
      obtain ⟨text, rfl, htext⟩ := List.map_eq_singleton_iff.mp htexts
      simp [elementsIn, render, Space.empty, joined, htext]
  | cons next values ih =>
      obtain ⟨text, texts, rfl, htext, htexts⟩ := List.map_eq_cons_iff.mp htexts
      obtain ⟨second, rest, rfl, -, -⟩ := List.map_eq_cons_iff.mp htexts
      rw [elementsIn, render, ih htexts, bytes_joined_cons, htext, hseparator]
      simp [Space.empty]

variable {member : Utf8String × Tree .value} {members : List (Utf8String × Tree .value)}

theorem render_membersIn (hseparator : separator.bytes = comma :: layout.gap.bytes)
    (htexts : texts.map Utf8String.bytes = (member :: members).map fun member =>
      (layout.literal member.1).bytes ++ (Byte.colon :: (layout.gap.bytes ++ member.2.render))) :
    (membersIn layout before member members).render =
      before.bytes ++ ((joined separator texts).bytes ++ [closeBrace]) := by
  induction members generalizing before member texts with
  | nil =>
      obtain ⟨text, rfl, htext⟩ := List.map_eq_singleton_iff.mp htexts
      simp [membersIn, render, Layout.key, Key.bytes, Space.empty, joined, htext]
  | cons next members ih =>
      obtain ⟨text, texts, rfl, htext, htexts⟩ := List.map_eq_cons_iff.mp htexts
      obtain ⟨second, rest, rfl, -, -⟩ := List.map_eq_cons_iff.mp htexts
      rw [membersIn, render, ih htexts, bytes_joined_cons, htext, hseparator]
      simp [Layout.key, Key.bytes, Space.empty]

theorem denote_elementsIn {value : Tree .value} {values : List (Tree .value)}
    {meanings : List Value} (hmeanings : (value :: values).map denote = meanings.map some) :
    (elementsIn layout before value values).denote = some meanings := by
  induction values generalizing before value meanings with
  | nil =>
      obtain ⟨meaning, rfl, hmeaning⟩ := List.map_eq_singleton_iff.mp hmeanings.symm
      rw [elementsIn, denote, ← hmeaning]
      rfl
  | cons next values ih =>
      obtain ⟨meaning, meanings, rfl, hmeaning, hmeanings⟩ := List.map_eq_cons_iff.mp hmeanings.symm
      rw [elementsIn, denote, ih hmeanings.symm, ← hmeaning]
      rfl

theorem denote_membersIn {fields : List (Utf8String × Value)}
    (hfields : ((member :: members).map fun member => member.2.denote.map (member.1, ·)) =
      fields.map some) : (membersIn layout before member members).denote = some fields := by
  induction members generalizing before member fields with
  | nil =>
      obtain ⟨field, rfl, hfield⟩ := List.map_eq_singleton_iff.mp hfields.symm
      obtain ⟨meaning, hmeaning, rfl⟩ := Option.map_eq_some_iff.mp hfield.symm
      simp [membersIn, denote, Layout.key, layout.reads, hmeaning]
  | cons next members ih =>
      obtain ⟨field, more, rfl, hfield, hmore⟩ := List.map_eq_cons_iff.mp hfields.symm
      obtain ⟨meaning, hmeaning, rfl⟩ := Option.map_eq_some_iff.mp hfield.symm
      simp [membersIn, denote, Layout.key, layout.reads, hmeaning, ih hmore.symm]

end Tree

namespace Value

variable (value : Value)

/-- The tree of the compact text is the tree in the compact layout. -/
theorem tree_eq : value.tree = value.treeIn .compact := by
  induction value using inductionOn with
  | null => rfl
  | bool value => cases value <;> rfl
  | number literal => rfl
  | string text => rfl
  | array elements ih =>
      have helements : elements.map tree = elements.map (treeIn .compact) :=
        List.map_congr_left ih
      rw [tree, treeElements_eq, treeIn, treeElementsIn_eq, helements]
      cases elements with
      | nil => rfl
      | cons element elements =>
          rw [List.map_cons, Tree.arrayOf, Tree.arrayIn, Tree.elementsOf_eq]
  | object fields ih =>
      have hfields : (fields.map fun field => (field.1, field.2.tree)) =
          fields.map fun field => (field.1, field.2.treeIn .compact) :=
        List.map_congr_left fun field hfield => by rw [ih field hfield]
      rw [tree, treeFields_eq, treeIn, treeFieldsIn_eq, hfields]
      cases fields with
      | nil => rfl
      | cons field fields =>
          rw [List.map_cons, Tree.objectOf, Tree.objectIn, Tree.membersOf_eq]

/-- The layout of a format. -/
structure LaidOut (fmt : JsonFmt) (layout : Layout) : Prop where
  unsorted : fmt.sortKeys = false
  literal : ∀ text, (layout.literal text).bytes = (pythonString text fmt.ensureAscii).bytes
  comma : (constant (if fmt.compact then "," else ", ")).bytes = comma :: layout.gap.bytes
  colon : (constant (if fmt.compact then ":" else ": ")).bytes = Byte.colon :: layout.gap.bytes

variable {fmt : JsonFmt} {layout : Layout}

/-- The tree is the text that is written. -/
theorem render_treeIn (hlayout : LaidOut fmt layout) (value : Value) :
    (value.treeIn layout).render = (value.dumps fmt).bytes := by
  induction value using inductionOn with
  | null =>
      rw [treeIn, dumps]
      decide
  | bool value => cases value <;> rw [treeIn, dumps] <;> decide
  | number literal => rfl
  | string text => exact hlayout.literal text
  | array elements ih =>
      have hrender : (elements.map (dumps fmt)).map Utf8String.bytes =
          (elements.map (treeIn layout)).map Tree.render := by
        rw [List.map_map, List.map_map]
        exact List.map_congr_left fun element helement => (ih element helement).symm
      have hdumps : ((Value.array elements).dumps fmt).bytes =
          openBracket :: ((joined (constant (if fmt.compact then "," else ", "))
            (elements.map (dumps fmt))).bytes ++ [closeBracket]) := by
        rw [dumps, dumpsElements_eq]
        rfl
      rw [treeIn, treeElementsIn_eq, hdumps]
      cases elements with
      | nil => rfl
      | cons element elements =>
          rw [List.map_cons, Tree.arrayIn, Tree.render,
            Tree.render_elementsIn hlayout.comma hrender]
          rfl
  | object fields ih =>
      let written := fields.map fun field =>
        pythonString field.1 fmt.ensureAscii ++ constant (if fmt.compact then ":" else ": ") ++
          field.2.dumps fmt
      have hrender : written.map Utf8String.bytes =
          (fields.map fun field => (field.1, field.2.treeIn layout)).map fun member =>
            (layout.literal member.1).bytes ++
              (Byte.colon :: (layout.gap.bytes ++ member.2.render)) := by
        rw [List.map_map, List.map_map]
        refine List.map_congr_left fun field hfield => ?_
        simp only [Function.comp_apply, Utf8String.bytes_append, hlayout.colon,
          hlayout.literal, ih field hfield, List.append_assoc, List.cons_append]
      have hdumps : ((Value.object fields).dumps fmt).bytes =
          openBrace :: ((joined (constant (if fmt.compact then "," else ", "))
            written).bytes ++ [closeBrace]) := by
        rw [dumps, dumpsFields_eq]
        simp only [hlayout.unsorted, Bool.false_eq_true, if_false, List.map_map]
        rfl
      rw [treeIn, treeFieldsIn_eq, hdumps]
      cases fields with
      | nil => rfl
      | cons field fields =>
          rw [List.map_cons, Tree.objectIn, Tree.render,
            Tree.render_membersIn hlayout.comma hrender]
          rfl

variable {value : Value}

/-- It denotes the value. -/
theorem denote_treeIn (layout : Layout) (hvalue : value.WellFormed) :
    (value.treeIn layout).denote = some value := by
  induction value using inductionOn with
  | null => rfl
  | bool value => cases value <;> rfl
  | number literal => exact congrArg some hvalue
  | string text => simp [treeIn, Tree.denote, layout.reads]
  | array elements ih =>
      have hdenote : (elements.map (treeIn layout)).map Tree.denote = elements.map some := by
        rw [List.map_map]
        exact List.map_congr_left fun element helement =>
          ih element helement (wellFormedElements_iff.mp hvalue element helement)
      rw [treeIn, treeElementsIn_eq]
      cases elements with
      | nil => rfl
      | cons element elements =>
          rw [List.map_cons, Tree.arrayIn, Tree.denote, Tree.denote_elementsIn hdenote]
          rfl
  | object fields ih =>
      have hdenote : (fields.map fun field => (field.1, field.2.treeIn layout)).map
          (fun member => member.2.denote.map (member.1, ·)) = fields.map some := by
        rw [List.map_map]
        refine List.map_congr_left fun field hfield => ?_
        rw [Function.comp_apply, ih field hfield (wellFormedFields_iff.mp hvalue.2 field hfield)]
        rfl
      rw [treeIn, treeFieldsIn_eq]
      have hnodup := hvalue.1
      cases fields with
      | nil => rfl
      | cons field fields =>
          rw [List.map_cons, Tree.objectIn, Tree.denote, Tree.denote_membersIn hdenote,
            Option.map_some, collect_of_nodup hnodup]

/-- What is written is the text of one document. -/
theorem parse_dumps (hlayout : LaidOut fmt layout) (value : Value) :
    parseDocument (value.dumps fmt).bytes = some ⟨.empty, value.treeIn layout, .empty⟩ :=
  parseDocument_eq_some_iff.mpr (by
    simp [Document.render, Space.empty, render_treeIn hlayout])

/-- A text is written for one well-formed value only. -/
theorem eq_of_dumps (hlayout : LaidOut fmt layout) {left right : Value} (hleft : left.WellFormed)
    (hright : right.WellFormed) (hwritten : left.dumps fmt = right.dumps fmt) : left = right := by
  have htrees : left.treeIn layout = right.treeIn layout := by
    have hdocuments := parse_dumps hlayout left
    rw [hwritten, parse_dumps hlayout right] at hdocuments
    exact (congrArg Document.value (Option.some.inj hdocuments)).symm
  have hsome : some left = some right := by
    rw [← denote_treeIn layout hleft, htrees, denote_treeIn layout hright]
  exact Option.some.inj hsome

theorem laidOut_compact : LaidOut ⟨false, true, false⟩ .compact :=
  ⟨rfl, fun _ => rfl, by decide, by decide⟩

theorem render_tree : value.tree.render = value.toJson.bytes := by
  rw [tree_eq, render_treeIn laidOut_compact]
  rfl

theorem denote_tree (hvalue : value.WellFormed) : value.tree.denote = some value := by
  rw [tree_eq, denote_treeIn .compact hvalue]

theorem toJson_injective {left right : Value} (hleft : left.WellFormed)
    (hright : right.WellFormed) (hwritten : left.toJson = right.toJson) : left = right :=
  eq_of_dumps laidOut_compact hleft hright hwritten

/-- Only the value itself is read from what is written. -/
theorem eq_of_valueFromSlice_toJson {found : Value} (hvalue : value.WellFormed)
    (hfound : valueFromSlice value.toJson.bytes = some found) : found = value := by
  obtain ⟨document, hrender, -, hdenote⟩ := valueFromSlice_eq_some_iff.mp hfound
  have hdocument : document = ⟨.empty, value.treeIn .compact, .empty⟩ :=
    (Option.some.inj ((parse_dumps laidOut_compact value).symm.trans
      (parseDocument_eq_some_iff.mpr hrender))).symm
  rw [hdocument, denote_treeIn .compact hvalue] at hdenote
  exact (Option.some.inj hdenote).symm

/-- No text of a value ends with white space. -/
theorem exists_last_toJson :
    ∃ front byte, value.toJson.bytes = front ++ [byte] ∧ isSpace byte = false := by
  rw [← render_tree]
  exact value.tree.exists_last

end Value

end Legroom.Json
