import Legroom.Lib.Json.Tree

/-!
# JSON values and edits of their strings

A tree denotes a value: numbers stay the text they were written as, and of
several members with one name the last value is kept in the place of the first.

An `Edit` assigns new texts to the strings at some paths.  Editing a tree writes
the new texts as literals and touches nothing else; editing commutes with taking
the value.
-/

namespace Legroom.Json

open Utf8

inductive Value where
  | null
  | bool (value : Bool)
  | number (literal : Atom)
  | string (text : Utf8String)
  | array (elements : List Value)
  | object (fields : List (Utf8String × Value))

namespace Value

/-- Add a field.  A field of the same name keeps its place and gets the value. -/
def insertField : List (Utf8String × Value) → Utf8String × Value →
    List (Utf8String × Value)
  | [], field => [field]
  | (name, value) :: fields, field =>
      if name = field.1 then (name, field.2) :: fields
      else (name, value) :: insertField fields field

/-- `Map::remove` puts the last field in the place of the one that goes. -/
def swapRemove (fields : List (Utf8String × Value)) (name : Utf8String) :
    List (Utf8String × Value) :=
  match fields.findIdx? (·.1 = name), fields.getLast? with
  | some index, some last => (fields.set index last).dropLast
  | _, _ => fields

/-- The fields of an object whose members are read in order. -/
def collect (members : List (Utf8String × Value)) : List (Utf8String × Value) :=
  members.foldl insertField []

def get (value : Value) (name : Utf8String) : Option Value :=
  match value with
  | .object fields => (fields.find? fun field => field.1 = name).map Prod.snd
  | _ => none

def asArray : Value → Option (List Value)
  | .array elements => some elements
  | _ => none

def asStr : Value → Option Utf8String
  | .string text => some text
  | _ => none

/-- A number is a `u64` if it is written with digits only and is small enough. -/
def asU64 : Value → Option ℕ
  | .number literal =>
      let number := literal.bytes.foldl (fun number digit => 10 * number + (digit.toNat - 48)) 0
      if literal.bytes.all isDigit ∧ number < 2 ^ 64 then some number else none
  | _ => none

def isNull : Value → Bool
  | .null => true
  | _ => false

/-- `get(name).and_then(as_str)`. -/
def getStr (value : Value) (name : String) : Option Utf8String :=
  (value.get (constant name)).bind asStr

/-- `get(name).and_then(as_u64)`. -/
def getU64 (value : Value) (name : String) : Option ℕ :=
  (value.get (constant name)).bind asU64

theorem eq_array_of_asArray {value : Value} {elements : List Value}
    (harray : value.asArray = some elements) : value = .array elements := by
  cases value with
  | array found => exact congrArg array (Option.some.inj harray)
  | _ => cases harray

end Value

/-! ## The value of a tree -/

abbrev Meaning : Part → Type
  | .value => Value
  | .elements => List Value
  | .members => List (Utf8String × Value)

def Atom.value (token : Atom) : Value :=
  if token.bytes = ascii "null" then .null
  else if token.bytes = ascii "true" then .bool true
  else if token.bytes = ascii "false" then .bool false
  else .number token

namespace Tree

def denote : {part : Part} → Tree part → Option (Meaning part)
  | _, .atom token => some token.value
  | _, .string lit => lit.text.map Value.string
  | _, .emptyArray _ => some (Value.array [])
  | _, .array elements => (denote elements).map Value.array
  | _, .emptyObject _ => some (Value.object [])
  | _, .object members =>
      (denote members).map fun fields => Value.object (Value.collect fields)
  | _, .lastElement _ value _ => (denote value).map fun value => [value]
  | _, .element _ value _ more => do
      let value ← denote value
      let more ← denote more
      return List.cons value more
  | _, .lastMember key value _ => do
      let name ← key.name.text
      let value ← denote value
      return [(name, value)]
  | _, .member key value _ more => do
      let name ← key.name.text
      let value ← denote value
      let more ← denote more
      return List.cons (name, value) more

end Tree

/-! ## Edits -/

inductive Step where
  | index (position : ℕ)
  | key (name : Utf8String)
  deriving DecidableEq

abbrev Path := List Step

/-- New texts for the strings at some paths. -/
def Edit : Type := Path → Option Utf8String

namespace Edit

/-- The edit that changes nothing. -/
def keepAll : Edit := fun _ => none

/-- What an edit does below a step. -/
def below (edit : Edit) (step : Step) : Edit := fun path => edit (step :: path)

/-- What it does below the member of a name, if the name is a text. -/
def belowName (edit : Edit) : Option Utf8String → Edit
  | some name => edit.below (.key name)
  | none => keepAll

/-- What it does to the elements behind the first. -/
def next (edit : Edit) : Edit
  | .index position :: path => edit (.index (position + 1) :: path)
  | _ => none

theorem below_next (edit : Edit) (position : ℕ) :
    edit.next.below (.index position) = edit.below (.index (position + 1)) :=
  rfl

/-- Write one more text. -/
def set (edit : Edit) (path : Path) (text : Utf8String) : Edit := fun other =>
  if other = path then some text else edit other

/-- The edit that writes a list of texts, each at its path. -/
def ofList (assignments : List (Path × Utf8String)) : Edit :=
  assignments.foldr (fun assignment edit => edit.set assignment.1 assignment.2) keepAll

@[simp]
theorem below_keepAll (step : Step) : keepAll.below step = keepAll := rfl

@[simp]
theorem belowName_keepAll (name : Option Utf8String) :
    keepAll.belowName name = keepAll := by
  cases name <;> rfl

@[simp]
theorem next_keepAll : keepAll.next = keepAll := by
  funext path
  rcases path with _ | ⟨_ | _, _⟩ <;> rfl

theorem below_set (edit : Edit) (first step : Step) (path : Path) (text : Utf8String) :
    (edit.set (first :: path) text).below step =
      if step = first then (edit.below first).set path text else edit.below step := by
  funext rest
  by_cases hstep : step = first
  · subst hstep
    by_cases hrest : rest = path <;> simp [below, set, hrest]
  · simp [below, set, hstep]

theorem belowName_set (edit : Edit) (name : Utf8String) (other : Option Utf8String)
    (path : Path) (text : Utf8String) :
    (edit.set (.key name :: path) text).belowName other =
      if other = some name then (edit.below (.key name)).set path text
      else edit.belowName other := by
  cases other with
  | none => rfl
  | some other => simp [belowName, below_set]

/-- A text that is written comes from the list. -/
theorem mem_of_ofList {assignments : List (Path × Utf8String)} {path : Path}
    {text : Utf8String} (htext : ofList assignments path = some text) :
    (path, text) ∈ assignments := by
  induction assignments with
  | nil => cases htext
  | cons assignment assignments ih =>
      obtain ⟨written, new⟩ := assignment
      rw [ofList, List.foldr_cons, set] at htext
      split_ifs at htext with hpath
      · subst hpath
        cases htext
        exact List.mem_cons_self
      · exact List.mem_cons_of_mem _ (ih htext)

end Edit

namespace Tree

/-- Write the new texts as literals in their places. -/
def edit : {part : Part} → Tree part → Edit → Tree part
  | _, .atom token, _ => .atom token
  | _, .string lit, new =>
      match new [] with
      | some text => .string (quote text)
      | none => .string lit
  | _, .emptyArray space, _ => .emptyArray space
  | _, .array elements, new => .array (edit elements new)
  | _, .emptyObject space, _ => .emptyObject space
  | _, .object members, new => .object (edit members new)
  | _, .lastElement before value after, new =>
      .lastElement before (edit value (new.below (.index 0))) after
  | _, .element before value after more, new =>
      .element before (edit value (new.below (.index 0))) after (edit more new.next)
  | _, .lastMember key value after, new =>
      .lastMember key (edit value (new.belowName key.name.text)) after
  | _, .member key value after more, new =>
      .member key (edit value (new.belowName key.name.text)) after (edit more new)

end Tree

namespace Value

mutual

def edit : Value → Edit → Value
  | .string text, new => .string ((new []).getD text)
  | .array elements, new => .array (editElements elements new)
  | .object fields, new => .object (editFields fields new)
  | .null, _ => .null
  | .bool value, _ => .bool value
  | .number literal, _ => .number literal

def editElements : List Value → Edit → List Value
  | [], _ => []
  | value :: values, new =>
      edit value (new.below (.index 0)) :: editElements values new.next

def editFields : List (Utf8String × Value) → Edit → List (Utf8String × Value)
  | [], _ => []
  | (name, value) :: fields, new =>
      (name, edit value (new.below (.key name))) :: editFields fields new

end

theorem editFields_insertField (fields : List (Utf8String × Value))
    (field : Utf8String × Value) (new : Edit) :
    editFields (insertField fields field) new =
      insertField (editFields fields new)
        (field.1, field.2.edit (new.below (.key field.1))) := by
  induction fields with
  | nil => rfl
  | cons first fields ih =>
      obtain ⟨name, value⟩ := first
      rw [insertField]
      by_cases hname : name = field.1
      · subst hname
        simp [insertField, editFields]
      · simp [insertField, editFields, hname, ih]

theorem editFields_foldl (members fields : List (Utf8String × Value)) (new : Edit) :
    editFields (members.foldl insertField fields) new =
      (editFields members new).foldl insertField (editFields fields new) := by
  induction members generalizing fields with
  | nil => rfl
  | cons member members ih =>
      rw [List.foldl_cons, ih, editFields_insertField]
      rfl

theorem editFields_collect (members : List (Utf8String × Value)) (new : Edit) :
    editFields (collect members) new = collect (editFields members new) :=
  editFields_foldl members [] new

end Value

def Meaning.edit : (part : Part) → Edit → Meaning part → Meaning part
  | .value, new, value => Value.edit value new
  | .elements, new, values => Value.editElements values new
  | .members, new, fields => Value.editFields fields new

/-- Editing a tree edits its value. -/
theorem Tree.denote_edit {part : Part} {tree : Tree part} {meaning : Meaning part}
    (new : Edit) (hdenote : tree.denote = some meaning) :
    (tree.edit new).denote = some (Meaning.edit part new meaning) := by
  induction tree generalizing new with
  | atom token =>
      have hatom : token.value.edit new = token.value := by
        rw [Atom.value]
        split_ifs <;> simp [Value.edit]
      cases hdenote
      exact congrArg some hatom.symm
  | string lit =>
      obtain ⟨text, htext, rfl⟩ := Option.map_eq_some_iff.mp hdenote
      rw [Tree.edit]
      cases hnew : new [] with
      | some text => simp [denote, Meaning.edit, Value.edit, hnew]
      | none => simp [denote, Meaning.edit, Value.edit, hnew, htext]
  | emptyArray space =>
      cases hdenote
      simp [denote, Tree.edit, Meaning.edit, Value.edit, Value.editElements]
  | array elements ih =>
      obtain ⟨values, hvalues, rfl⟩ := Option.map_eq_some_iff.mp hdenote
      simp [Tree.edit, denote, ih new hvalues, Meaning.edit, Value.edit]
  | emptyObject space =>
      cases hdenote
      simp [denote, Tree.edit, Meaning.edit, Value.edit, Value.editFields]
  | object members ih =>
      obtain ⟨fields, hfields, rfl⟩ := Option.map_eq_some_iff.mp hdenote
      simp [Tree.edit, denote, ih new hfields, Meaning.edit, Value.edit,
        Value.editFields_collect]
  | lastElement before value after ih =>
      obtain ⟨meaning, hvalue, rfl⟩ := Option.map_eq_some_iff.mp hdenote
      simp [Tree.edit, denote, ih _ hvalue, Meaning.edit, Value.editElements]
  | element before value after more ihValue ihMore =>
      simp only [denote, bind, Option.bind_eq_some_iff] at hdenote
      obtain ⟨meaning, hvalue, values, hmore, hcons⟩ := hdenote
      cases hcons
      simp [Tree.edit, denote, ihValue _ hvalue, ihMore _ hmore, Meaning.edit,
        Value.editElements]
  | lastMember key value after ih =>
      simp only [denote, bind, Option.bind_eq_some_iff] at hdenote
      obtain ⟨name, hname, meaning, hvalue, hsingle⟩ := hdenote
      cases hsingle
      simp [Tree.edit, denote, hname, ih _ hvalue, Meaning.edit, Value.editFields,
        Edit.belowName]
  | member key value after more ihValue ihMore =>
      simp only [denote, bind, Option.bind_eq_some_iff] at hdenote
      obtain ⟨name, hname, meaning, hvalue, fields, hmore, hcons⟩ := hdenote
      cases hcons
      simp [Tree.edit, denote, hname, ihValue _ hvalue, ihMore _ hmore, Meaning.edit,
        Value.editFields, Edit.belowName]

/-- Texts in place of texts leave the nesting as it is. -/
@[simp]
theorem Tree.depth_edit {part : Part} (tree : Tree part) (new : Edit) :
    (tree.edit new).depth = tree.depth := by
  induction tree generalizing new with
  | string lit =>
      rw [Tree.edit]
      cases new [] <;> rfl
  | atom token => rfl
  | emptyArray space => rfl
  | emptyObject space => rfl
  | array elements ih => simp [Tree.edit, depth, ih]
  | object members ih => simp [Tree.edit, depth, ih]
  | lastElement before value after ih => simp [Tree.edit, depth, ih]
  | element before value after more ihValue ihMore =>
      simp [Tree.edit, depth, ihValue, ihMore]
  | lastMember key value after ih => simp [Tree.edit, depth, ih]
  | member key value after more ihValue ihMore =>
      simp [Tree.edit, depth, ihValue, ihMore]

/-! ## Reading values -/

/-- `serde_json` gives up on deeper nesting when it builds a value. -/
def recursionLimit : ℕ := 128

/-- `serde_json::from_slice::<Value>`. -/
def valueFromSlice (bytes : Bytes) : Option Value :=
  (parseDocument bytes).bind fun document =>
    if document.value.depth < recursionLimit then document.value.denote else none

theorem valueFromSlice_eq_some_iff {bytes : Bytes} {value : Value} :
    valueFromSlice bytes = some value ↔ ∃ document : Document, document.render = bytes ∧
      document.value.depth < recursionLimit ∧ document.value.denote = some value := by
  constructor
  · intro hvalue
    obtain ⟨document, hdocument, hdenote⟩ := Option.bind_eq_some_iff.mp hvalue
    split_ifs at hdenote with hdepth
    exact ⟨document, parseDocument_eq_some_iff.mp hdocument, hdepth, hdenote⟩
  · rintro ⟨document, hrender, hdepth, hdenote⟩
    rw [valueFromSlice, parseDocument_eq_some_iff.mpr hrender, Option.bind_some,
      if_pos hdepth]
    exact hdenote

/-- An edited text is read as the edited value. -/
theorem valueFromSlice_edit {document : Document} {value : Value}
    (hdepth : document.value.depth < recursionLimit)
    (hdenote : document.value.denote = some value) (new : Edit) :
    valueFromSlice (document.value.edit new).render = some (value.edit new) := by
  refine valueFromSlice_eq_some_iff.mpr
    ⟨⟨.empty, document.value.edit new, .empty⟩, ?_, ?_, Tree.denote_edit _ hdenote⟩
  · simp [Document.render, Space.empty]
  · rw [Tree.depth_edit]
    exact hdepth

end Legroom.Json
