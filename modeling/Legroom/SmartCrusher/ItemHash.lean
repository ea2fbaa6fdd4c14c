import Legroom.Lib.Digests
import Legroom.Lib.Json.Sorted

/-!
# Python's texts of an item

An item is written as `json.dumps` writes it.  What is written is read back as the item, and the
text that is hashed to find repeated items tells all items apart that differ in more than the
order of their fields.
-/

namespace Legroom.SmartCrusher

open Json Utf8

/-- `compute_item_hash`. -/
def computeItemHash (item : Value) : Utf8String :=
  hexPrefix (Md5.digest item.pythonJsonDumpsSortKeys.bytes).toList 8

/-! ## Layouts -/

/-- A space behind commas and colons, and all in ASCII. -/
def pythonLayout : Layout := ⟨asciiQuote, ⟨ascii " ", by decide⟩, text_asciiQuote⟩

theorem laidOut_python : Value.LaidOut ⟨false, false, true⟩ pythonLayout where
  unsorted := rfl
  literal text := by
    have hquote : (constant "\"").bytes = [quoteByte] := by decide
    simp [pythonLayout, StringLit.bytes, asciiQuote, pythonString, hquote]
  comma := by decide
  colon := by decide

/-- With sorted keys the sorted item is written. -/
theorem pythonJsonDumpsSortKeys_eq (item : Value) :
    item.pythonJsonDumpsSortKeys = item.sorted.pythonJsonDumps :=
  Value.dumps_sortKeys false true item

/-! ## Reading back -/

/-- The value that a text is the JSON of. -/
def readBack (text : Utf8String) : Option Value := do
  let document ← parseDocument text.bytes
  document.value.denote

theorem readBack_dumps {fmt : JsonFmt} {layout : Layout} (hlayout : Value.LaidOut fmt layout)
    {item : Value} (hitem : item.WellFormed) : readBack (item.dumps fmt) = some item := by
  rw [readBack, Value.parse_dumps hlayout]
  exact Value.denote_treeIn layout hitem

theorem pythonJsonDumpsSortKeys_eq_iff {left right : Value} (hleft : left.WellFormed)
    (hright : right.WellFormed) :
    left.pythonJsonDumpsSortKeys = right.pythonJsonDumpsSortKeys ↔ left.same right = true := by
  rw [Value.same_iff hleft hright, pythonJsonDumpsSortKeys_eq, pythonJsonDumpsSortKeys_eq]
  constructor
  · exact Value.eq_of_dumps laidOut_python (Value.wellFormed_sorted hleft)
      (Value.wellFormed_sorted hright)
  · exact congrArg Value.pythonJsonDumps

/-- Each text is read back as the item, the sorted one up to the order of fields, and two items
have one sorted text exactly if they are the same up to that order. -/
theorem item_texts_faithful (item : Value) (hitem : item.WellFormed) :
    readBack item.pythonJsonDumps = some item ∧
      readBack item.pythonSafeJsonDumps = some item ∧
      (∃ found, readBack item.pythonJsonDumpsSortKeys = some found ∧ found.same item = true) ∧
      ∀ other : Value, other.WellFormed →
        (item.pythonJsonDumpsSortKeys = other.pythonJsonDumpsSortKeys ↔
          item.same other = true) := by
  have hsorted := Value.wellFormed_sorted hitem
  refine ⟨readBack_dumps laidOut_python hitem, readBack_dumps Value.laidOut_compact hitem,
    ⟨item.sorted, ?_, ?_⟩, fun other hother => pythonJsonDumpsSortKeys_eq_iff hitem hother⟩
  · rw [pythonJsonDumpsSortKeys_eq]
    exact readBack_dumps laidOut_python hsorted
  · rw [Value.same_iff hsorted hitem, Value.sorted_sorted]

theorem item_texts_faithful_swapped :
    let one : Utf8String × Value := (constant "b", .number (numberAtom 1))
    let two : Utf8String × Value := (constant "a", .string (constant "\"\n"))
    readBack (Value.object [one, two]).pythonJsonDumps = some (.object [one, two]) ∧
      (Value.object [one, two]).pythonJsonDumpsSortKeys =
        (Value.object [two, one]).pythonJsonDumpsSortKeys := by
  intro one two
  have hone : Value.WellFormed (.object [one, two]) := ⟨by decide, rfl, trivial, trivial⟩
  have htwo : Value.WellFormed (.object [two, one]) := ⟨by decide, trivial, rfl, trivial⟩
  have hfaithful := item_texts_faithful (.object [one, two]) hone
  exact ⟨hfaithful.1, (hfaithful.2.2.2 (.object [two, one]) htwo).mpr (by decide)⟩

end Legroom.SmartCrusher
