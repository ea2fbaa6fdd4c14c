import Legroom.Lib.Json.Writer
import Mathlib.Algebra.Order.BigOperators.Group.List

/-!
# The weight of a value

A value weighs no more than the text it is read from, and more than its parts.
-/

namespace Legroom.Json

namespace Value

mutual

def weight : Value → ℕ
  | .string text => text.bytes.length + 1
  | .array elements => weightElements elements + 1
  | .object fields => weightFields fields + 1
  | _ => 1

def weightElements : List Value → ℕ
  | [] => 0
  | value :: values => value.weight + weightElements values

def weightFields : List (Utf8.Utf8String × Value) → ℕ
  | [] => 0
  | (_, value) :: fields => value.weight + weightFields fields

end

theorem weight_pos (value : Value) : 0 < value.weight := by
  cases value <;> simp [weight]

theorem weightElements_eq (values : List Value) :
    weightElements values = (values.map weight).sum := by
  induction values with
  | nil => rfl
  | cons value values ih => rw [weightElements, ih, List.map_cons, List.sum_cons]

variable (fields : List (Utf8.Utf8String × Value))

theorem weightFields_eq : weightFields fields = (fields.map fun field => field.2.weight).sum := by
  induction fields with
  | nil => rfl
  | cons field fields ih => rw [weightFields, ih, List.map_cons, List.sum_cons]

theorem weight_get {value found : Value} {name : Utf8.Utf8String}
    (hget : value.get name = some found) : found.weight < value.weight := by
  cases value with
  | object fields =>
      obtain ⟨field, hfield, rfl⟩ := Option.map_eq_some_iff.mp hget
      have hmem : field.2.weight ∈ fields.map fun field => field.2.weight :=
        List.mem_map_of_mem (List.mem_of_find?_eq_some hfield)
      rw [weight, weightFields_eq]
      exact Nat.lt_succ_of_le (List.le_sum_of_mem hmem)
  | _ => cases hget

theorem weightFields_insertField (field : Utf8.Utf8String × Value) :
    weightFields (insertField fields field) ≤ weightFields fields + field.2.weight := by
  induction fields with
  | nil => simp [insertField, weightFields]
  | cons first fields ih =>
      rw [insertField]
      split_ifs
      · simp only [weightFields]
        omega
      · simp only [weightFields]
        omega

/-- Of members with one name only one is kept. -/
theorem weightFields_collect (members : List (Utf8.Utf8String × Value)) :
    weightFields (collect members) ≤ weightFields members := by
  have hfold : ∀ fields, weightFields (members.foldl insertField fields) ≤
      weightFields fields + weightFields members := by
    induction members with
    | nil => exact fun fields => le_rfl
    | cons member members ih =>
        intro fields
        have hinsert := weightFields_insertField fields member
        have hrest := ih (insertField fields member)
        simp only [List.foldl_cons, weightFields]
        omega
  have hempty := hfold []
  rwa [weightFields, Nat.zero_add] at hempty

end Value

/-! ## Texts are no shorter than what they stand for -/

/-- How many bytes of an escape are behind a state. -/
def Unescape.read : Unescape → ℕ
  | .plain => 0
  | .escape => 1
  | .hex left _ high => 5 - left + (if high.isSome then 6 else 0)
  | .afterHigh _ => 6
  | .afterHighSlash _ => 7

theorem length_encodeUtf8 (code : ℕ) : (encodeUtf8 code).length ≤ 4 := by
  rw [encodeUtf8]
  split_ifs <;> simp

theorem Unescape.length_finish {value : ℕ} {high : Option ℕ} {next : Unescape} {text : Bytes}
    (hfinish : finish value high = some (next, text)) :
    text.length + next.read ≤ 6 + (if high.isSome then 6 else 0) := by
  cases high with
  | none =>
      rw [finish] at hfinish
      split_ifs at hfinish
      · cases hfinish
        simp [read]
      · cases hfinish
        have hencode := length_encodeUtf8 value
        simp only [read, Option.isSome_none]
        omega
  | some high =>
      rw [finish] at hfinish
      split_ifs at hfinish
      cases hfinish
      have hencode := length_encodeUtf8 (0x10000 + (high - 0xD800) * 0x400 + (value - 0xDC00))
      simp only [read, Option.isSome_some]
      omega

theorem Unescape.length_step {state next : Unescape} {byte : Byte} {text : Bytes}
    (hstep : state.step byte = some (next, text)) :
    text.length + next.read ≤ state.read + 1 := by
  cases state with
  | plain =>
      rw [step] at hstep
      split_ifs at hstep <;> cases hstep <;> simp [read]
  | escape =>
      rw [step] at hstep
      split_ifs at hstep
      · cases hstep
        simp [read]
      · obtain ⟨char, -, hchar⟩ := Option.map_eq_some_iff.mp hstep
        cases hchar
        simp [read]
  | hex left value high =>
      rw [step] at hstep
      simp only [bind, Option.bind_eq_some_iff] at hstep
      obtain ⟨digit, -, hstep⟩ := hstep
      split_ifs at hstep with hleft
      · have hfinish := length_finish hstep
        rw [read, hleft]
        omega
      · cases hstep
        simp only [read, List.length_nil]
        omega
  | afterHigh high =>
      rw [step] at hstep
      split_ifs at hstep
      cases hstep
      simp [read]
  | afterHighSlash high =>
      rw [step] at hstep
      split_ifs at hstep
      cases hstep
      simp [read]

theorem Unescape.length_run {state last : Unescape} {bytes text : Bytes}
    (hrun : state.run bytes = some (last, text)) :
    text.length + last.read ≤ state.read + bytes.length := by
  induction bytes generalizing state text with
  | nil =>
      cases hrun
      simp
  | cons byte bytes ih =>
      rw [run] at hrun
      simp only [bind, Option.bind_eq_some_iff] at hrun
      obtain ⟨⟨next, front⟩, hstep, ⟨after, back⟩, hrest, htext⟩ := hrun
      cases htext
      have hfirst := length_step hstep
      have hlater := ih hrest
      dsimp only at hfirst hlater ⊢
      rw [List.length_append, List.length_cons]
      omega

theorem StringLit.length_text {lit : StringLit} {text : Utf8.Utf8String}
    (htext : lit.text = some text) : text.bytes.length ≤ lit.raw.length := by
  rw [StringLit.text] at htext
  split at htext
  · rename_i bytes hrun
    have hbytes : text.bytes = bytes := by
      cases hutf : Utf8.fromUtf8 bytes with
      | error failure =>
          rw [hutf] at htext
          cases htext
      | ok found =>
          rw [hutf] at htext
          cases htext
          exact Utf8.fromUtf8_eq_ok_iff.mp hutf
    have hlength := Unescape.length_run hrun
    simp only [Unescape.read] at hlength
    rw [hbytes]
    omega
  · cases htext

def Meaning.weight : (part : Part) → Meaning part → ℕ
  | .value, value => Value.weight value
  | .elements, values => Value.weightElements values
  | .members, fields => Value.weightFields fields

theorem Tree.weight_le {part : Part} {tree : Tree part} {meaning : Meaning part}
    (hdenote : tree.denote = some meaning) :
    Meaning.weight part meaning ≤ tree.render.length := by
  induction tree with
  | atom token =>
      cases hdenote
      have hlength : 0 < token.bytes.length := List.length_pos_iff.mpr token.ne_nil
      have hweight : Value.weight token.value = 1 := by
        rw [Atom.value]
        split_ifs <;> rfl
      rw [Meaning.weight, render, hweight]
      exact hlength
  | string lit =>
      obtain ⟨text, htext, rfl⟩ := Option.map_eq_some_iff.mp hdenote
      have hlength := StringLit.length_text htext
      simp only [Meaning.weight, Value.weight, render, StringLit.bytes, List.length_cons,
        List.length_append, List.length_nil]
      omega
  | emptyArray space =>
      cases hdenote
      simp [Meaning.weight, Value.weight, Value.weightElements, render]
  | array elements ih =>
      obtain ⟨values, hvalues, rfl⟩ := Option.map_eq_some_iff.mp hdenote
      exact Nat.succ_le_succ (ih hvalues)
  | emptyObject space =>
      cases hdenote
      simp [Meaning.weight, Value.weight, Value.weightFields, render]
  | object members ih =>
      obtain ⟨fields, hfields, rfl⟩ := Option.map_eq_some_iff.mp hdenote
      exact Nat.succ_le_succ ((Value.weightFields_collect fields).trans (ih hfields))
  | lastElement before value after ih =>
      obtain ⟨meaning, hvalue, rfl⟩ := Option.map_eq_some_iff.mp hdenote
      have hweight := ih hvalue
      simp only [Meaning.weight, Value.weightElements, render, List.length_append,
        List.length_cons] at hweight ⊢
      omega
  | element before value after more ihValue ihMore =>
      simp only [denote, bind, Option.bind_eq_some_iff] at hdenote
      obtain ⟨meaning, hvalue, values, hmore, hcons⟩ := hdenote
      cases hcons
      have hfirst := ihValue hvalue
      have hrest := ihMore hmore
      simp only [Meaning.weight, Value.weightElements, render, List.length_append,
        List.length_cons] at hfirst hrest ⊢
      omega
  | lastMember key value after ih =>
      simp only [denote, bind, Option.bind_eq_some_iff] at hdenote
      obtain ⟨name, hname, meaning, hvalue, hsingle⟩ := hdenote
      cases hsingle
      have hweight := ih hvalue
      simp only [Meaning.weight, Value.weightFields, render, List.length_append,
        List.length_cons] at hweight ⊢
      omega
  | member key value after more ihValue ihMore =>
      simp only [denote, bind, Option.bind_eq_some_iff] at hdenote
      obtain ⟨name, hname, meaning, hvalue, fields, hmore, hcons⟩ := hdenote
      cases hcons
      have hfirst := ihValue hvalue
      have hrest := ihMore hmore
      simp only [Meaning.weight, Value.weightFields, render, List.length_append,
        List.length_cons] at hfirst hrest ⊢
      omega

/-- A value weighs no more than the text it is read from. -/
theorem weight_le_of_valueFromSlice {bytes : Bytes} {value : Value}
    (hvalue : valueFromSlice bytes = some value) : value.weight ≤ bytes.length := by
  obtain ⟨document, hrender, -, hdenote⟩ := valueFromSlice_eq_some_iff.mp hvalue
  have hweight := Tree.weight_le hdenote
  rw [← hrender, Document.render]
  simp only [Meaning.weight, List.length_append] at hweight ⊢
  omega

end Legroom.Json
