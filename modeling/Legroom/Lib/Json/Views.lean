import Legroom.Lib.Json.Locate

/-!
# Borrowed views of a JSON text

Typed readers that borrow from the text they read: a borrowed slice knows the
address it starts at, so the position of a part can be recovered from it.  A
record is read by the names of its fields, each at most once, or positionally
from an array; names that the record does not know are skipped.
-/

namespace Legroom.Json

open Utf8

/-- A borrowed text: the address of its first byte and its bytes. -/
structure Slice where
  start : ℕ
  bytes : Bytes
  deriving DecidableEq

def Slice.stop (slice : Slice) : ℕ := slice.start + slice.bytes.length

def Located.slice (located : Located) : Slice :=
  ⟨located.start, located.value.render⟩

namespace Slice

/-- The value that a text holds, where it stands. -/
def root (slice : Slice) : Option Located :=
  (parseDocument slice.bytes).map fun document =>
    ⟨slice.start + document.before.bytes.length, document.value⟩

end Slice

theorem Located.root_slice (located : Located) : located.slice.root = some located := by
  have hdocument : parseDocument located.slice.bytes =
      some ⟨.empty, located.value, .empty⟩ := by
    rw [parseDocument_eq_some_iff, Document.render]
    simp [Space.empty, slice]
  rw [Slice.root, hdocument]
  rfl

theorem Document.root_slice (document : Document) :
    (⟨0, document.render⟩ : Slice).root = some document.root := by
  rw [Slice.root, parseDocument_eq_some_iff.mpr rfl, Option.map_some, Document.root,
    Nat.zero_add]

namespace Located

/-- The elements of an array, borrowed. -/
def rawElements (located : Located) : Option (List Slice) :=
  match located.value with
  | .array _ => some (located.elements.map slice)
  | .emptyArray _ => some []
  | _ => none

/-- An owned text. -/
def text (located : Located) : Option Utf8String :=
  match located.value with
  | .string lit => lit.text
  | _ => none

/-- The members of a name: at most one may be there. -/
def field (located : Located) (name : Utf8String) : Option (Option Located) :=
  match located.members.filter fun member => member.1.text = some name with
  | [] => some none
  | [member] => some (some member.2)
  | _ => none

def isNull (located : Located) : Bool :=
  match located.value with
  | .atom token => token.bytes = ascii "null"
  | _ => false

/-- The fields of a record, in the order of `names`; `none` for a field that is
not there.  Objects name their fields, arrays list them from the first. -/
def record (located : Located) (names : List Utf8String) :
    Option (List (Option Located)) :=
  match located.value with
  | .object _ =>
      if located.members.all fun member => member.1.text.isSome then
        names.mapM located.field
      else none
  | .emptyObject _ => some (names.map fun _ => none)
  | .array _ =>
      if located.elements.length ≤ names.length then
        some (names.mapIdx fun position _ => located.elements[position]?)
      else none
  | .emptyArray _ => some (names.map fun _ => none)
  | _ => none

end Located

namespace Slice

def rawElements (slice : Slice) : Option (List Slice) := slice.root.bind Located.rawElements

def text (slice : Slice) : Option Utf8String := slice.root.bind Located.text

def record (slice : Slice) (names : List Utf8String) : Option (List (Option Located)) :=
  slice.root.bind fun located => located.record names

end Slice

/-- An optional borrowed part: `null` counts as absent. -/
def optionalRaw : Option Located → Option Slice
  | some located => if located.isNull then none else some located.slice
  | none => none

/-- An optional borrowed text.  A text can only be borrowed from a literal that is
written without escapes. -/
def optionalText : Option Located → Option (Option Utf8String)
  | some located =>
      match located.value with
      | .string lit =>
          if backslash ∈ lit.raw then none else some (some ⟨lit.raw, lit.valid⟩)
      | _ => if located.isNull then some none else none
  | none => some none

/-! ## What the views mean -/

namespace Located

variable {located : Located} {fields : List (Utf8String × Value)}

/-- An object is read by the names of its members. -/
theorem record_of_object (hdenote : located.value.denote = some (.object fields))
    (names : List Utf8String) : located.record names = names.mapM located.field := by
  obtain ⟨start, value⟩ := located
  rcases Tree.of_denote_object hdenote with
    ⟨inner, members, hvalue, hinner, rfl⟩ | ⟨⟨space, hvalue⟩, rfl⟩
  · cases hvalue
    have hnames : ∀ member ∈ Tree.locateMembers (start + 1) inner,
        member.1.text.isSome = true := by
      intro member hmember
      have hmap := Tree.denote_locateMembers (start + 1) hinner
      have hmem : (member.1.text, member.2.value.denote) ∈
          members.map fun field => (some field.1, some field.2) :=
        hmap ▸ List.mem_map_of_mem hmember
      obtain ⟨field, _, heq⟩ := List.mem_map.mp hmem
      rw [← (Prod.mk.inj heq).1]
      rfl
    rw [record]
    exact if_pos (List.all_eq_true.mpr hnames)
  · cases hvalue
    induction names with
    | nil => rfl
    | cons name names ih =>
        rw [List.mapM_cons, ← ih]
        rfl

variable {name : Utf8String}
variable {parts : List (Option Located)}

theorem record_one (hdenote : located.value.denote = some (.object fields))
    (hrecord : located.record [name] = some parts) :
    ∃ found, located.field name = some found ∧ parts = [found] := by
  rw [record_of_object hdenote] at hrecord
  cases hfield : located.field name with
  | none => simp [hfield] at hrecord
  | some found =>
      simp [hfield] at hrecord
      exact ⟨found, rfl, hrecord.symm⟩

theorem record_two (hdenote : located.value.denote = some (.object fields))
    {first second : Utf8String} (hrecord : located.record [first, second] = some parts) :
    ∃ left right, located.field first = some left ∧ located.field second = some right ∧
      parts = [left, right] := by
  rw [record_of_object hdenote] at hrecord
  cases hleft : located.field first with
  | none => simp [hleft] at hrecord
  | some left =>
      cases hright : located.field second with
      | none => simp [hleft, hright] at hrecord
      | some right =>
          simp [hleft, hright] at hrecord
          exact ⟨left, right, rfl, rfl, hrecord.symm⟩

theorem reaches_of_field {part : Located} (hfield : located.field name = some (some part)) :
    Reaches located [.key name] part := by
  rw [field] at hfield
  split at hfield
  · cases hfield
  · rename_i member hfilter
    cases hfield
    exact .key hfilter (.here _)
  · cases hfield

/-- What stands under a name denotes the field of that name. -/
theorem get_of_field (hdenote : located.value.denote = some (.object fields))
    {found : Option Located} (hfield : located.field name = some found) :
    found.map (fun part => part.value.denote) =
      ((Value.object fields).get name).map some := by
  rw [← get_of_members hdenote name]
  rw [field] at hfield
  split at hfield
  · rename_i hfilter
    cases hfield
    rw [hfilter]
    rfl
  · rename_i member hfilter
    cases hfield
    rw [hfilter]
    rfl
  · cases hfield

variable {values : List Value}

/-- An array is read as a record that lists its fields. -/
theorem record_of_array (hdenote : located.value.denote = some (.array values))
    {names : List Utf8String} {found : List (Option Located)}
    (hrecord : located.record names = some found) :
    located.elements.length ≤ names.length ∧
      found = names.mapIdx fun position _ => located.elements[position]? := by
  obtain ⟨start, value⟩ := located
  rcases Tree.of_denote_array hdenote with ⟨inner, hvalue, hinner⟩ | ⟨⟨space, hvalue⟩, rfl⟩
  · cases hvalue
    simp only [record] at hrecord
    split_ifs at hrecord with hlength
    cases hrecord
    exact ⟨hlength, rfl⟩
  · cases hvalue
    cases hrecord
    refine ⟨Nat.zero_le _, ?_⟩
    rw [List.map_const', eq_comm, List.mapIdx_eq_replicate_iff]
    exact fun position hposition => rfl

theorem length_elements (hdenote : located.value.denote = some (.array values)) :
    located.elements.length = values.length := by
  have hlength := congrArg List.length (denote_elements hdenote)
  simpa using hlength

/-- Only objects and arrays are read as records. -/
theorem record_eq_none {value : Value} (hdenote : located.value.denote = some value)
    (hobject : ∀ fields, value ≠ .object fields) (harray : ∀ values, value ≠ .array values)
    (names : List Utf8String) : located.record names = none := by
  obtain ⟨start, tree⟩ := located
  cases tree with
  | atom token => rfl
  | string lit => rfl
  | emptyArray space => exact absurd (Option.some.inj hdenote).symm (harray _)
  | emptyObject space => exact absurd (Option.some.inj hdenote).symm (hobject _)
  | array inner =>
      obtain ⟨values, _, heq⟩ := Option.map_eq_some_iff.mp hdenote
      exact absurd heq.symm (harray _)
  | object inner =>
      obtain ⟨members, _, heq⟩ := Option.map_eq_some_iff.mp hdenote
      exact absurd heq.symm (hobject _)

theorem denote_of_isNull (hnull : located.isNull = true) : located.value.denote = some .null := by
  obtain ⟨start, value⟩ := located
  cases value with
  | atom token =>
      have hbytes : token.bytes = ascii "null" := by simpa [isNull] using hnull
      rw [Tree.denote, Atom.value, if_pos hbytes]
  | _ => cases hnull

end Located

/-- A borrowed text is the text of its literal. -/
theorem string_of_optionalText {located : Located} {text : Utf8String}
    (htext : optionalText (some located) = some (some text)) :
    located.value.denote = some (.string text) := by
  obtain ⟨start, value⟩ := located
  cases value with
  | string lit =>
      simp only [optionalText] at htext
      split_ifs at htext with hraw
      cases htext
      rw [Tree.denote, StringLit.text_of_not_mem hraw, Option.map_some]
  | atom token =>
      simp only [optionalText] at htext
      split_ifs at htext
      cases htext
  | _ => cases htext

variable {found : Option Located}

/-- An absent text is missing or null. -/
theorem isNull_of_optionalText (htext : optionalText found = some none) :
    ∀ located ∈ found, located.isNull = true := by
  intro located hlocated
  cases hlocated
  obtain ⟨start, value⟩ := located
  cases value with
  | string lit =>
      simp only [optionalText] at htext
      split_ifs at htext
      cases htext
  | atom token =>
      simp only [optionalText] at htext
      split_ifs at htext with hnull
      exact hnull
  | _ => cases htext

theorem slice_of_optionalRaw {slice : Slice} (hslice : optionalRaw found = some slice) :
    ∃ located, found = some located ∧ slice = located.slice := by
  cases found with
  | none => cases hslice
  | some located =>
      simp only [optionalRaw] at hslice
      split_ifs at hslice
      cases hslice
      exact ⟨located, rfl, rfl⟩

end Legroom.Json
