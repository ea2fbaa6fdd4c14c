import Legroom.Lib.Json.Written
import Mathlib.Data.List.Nodup
import Mathlib.Data.List.Sort

/-!
# Values up to the order of fields

Sorting the fields of a value at every depth leaves its content: two values are sorted into one
exactly if they are the same apart from the order of fields.
-/

namespace Legroom.Json.Value

open Utf8

/-! ## Sameness -/

theorem sameElements_iff {lefts rights : List Value} :
    sameElements lefts rights ↔
      List.Forall₂ (fun left right => left.same right = true) lefts rights := by
  induction lefts generalizing rights with
  | nil => cases rights <;> simp [sameElements]
  | cons left lefts ih => cases rights <;> simp [sameElements, ih]

theorem sameFields_iff {lefts rights : List (Utf8String × Value)} :
    sameFields lefts rights ↔ ∀ field ∈ lefts, ∃ other,
      rights.find? (fun other => other.1 = field.1) = some other ∧ field.2.same other.2 := by
  induction lefts with
  | nil => simp [sameFields]
  | cons left lefts ih =>
      obtain ⟨name, value⟩ := left
      rw [sameFields, Bool.and_eq_true, ih, List.forall_mem_cons]
      refine and_congr_left fun _ => ?_
      cases rights.find? fun other => other.1 = name with
      | none => simp
      | some other => simp

/-! ## Sorting -/

/-- The order of names. -/
def nameLe (left right : Utf8String × Value) : Bool := decide (left.1.bytes ≤ right.1.bytes)

mutual

/-- The value with the fields of every object in the order of their names. -/
def sorted : Value → Value
  | .null => .null
  | .bool value => .bool value
  | .number literal => .number literal
  | .string text => .string text
  | .array elements => .array (sortedElements elements)
  | .object fields => .object ((sortedFields fields).mergeSort nameLe)

def sortedElements : List Value → List Value
  | [] => []
  | value :: values => value.sorted :: sortedElements values

def sortedFields : List (Utf8String × Value) → List (Utf8String × Value)
  | [] => []
  | (name, value) :: fields => (name, value.sorted) :: sortedFields fields

end

theorem sortedElements_eq (elements : List Value) :
    sortedElements elements = elements.map sorted := by
  induction elements with
  | nil => rfl
  | cons value values ih => rw [sortedElements, ih, List.map_cons]

variable (fields : List (Utf8String × Value))

theorem sortedFields_eq :
    sortedFields fields = fields.map fun field => (field.1, field.2.sorted) := by
  induction fields with
  | nil => rfl
  | cons field fields ih => rw [sortedFields, ih, List.map_cons]

theorem map_fst_sortedFields : (sortedFields fields).map Prod.fst = fields.map Prod.fst := by
  rw [sortedFields_eq, List.map_map]
  rfl

/-- Rows of the same fields in the order of distinct names are one row. -/
theorem eq_of_pairwise_names {left right : List (Utf8String × Value)}
    (hleft : left.Pairwise fun field other => field.1.bytes ≤ other.1.bytes)
    (hright : right.Pairwise fun field other => field.1.bytes ≤ other.1.bytes)
    (hnodup : (right.map Prod.fst).Nodup) (hperm : left.Perm right) : left = right := by
  refine List.Perm.eq_of_pairwise (fun field other hfield hother hle hge => ?_) hleft hright hperm
  exact List.inj_on_of_nodup_map hnodup (hperm.mem_iff.mp hfield) hother
    (Utf8String.ext' (List.le_antisymm hle hge))

theorem pairwise_mergeSort_nameLe :
    (fields.mergeSort nameLe).Pairwise fun field other => field.1.bytes ≤ other.1.bytes := by
  have hsorted : (fields.mergeSort nameLe).Pairwise fun field other =>
      nameLe field other = true := by
    refine List.pairwise_mergeSort (fun first second third hfirst hsecond => ?_)
      (fun first second => ?_) fields
    · exact decide_eq_true
        (List.le_trans (of_decide_eq_true hfirst) (of_decide_eq_true hsecond))
    · rw [Bool.or_eq_true]
      exact (List.le_total first.1.bytes second.1.bytes).imp decide_eq_true decide_eq_true
  exact hsorted.imp of_decide_eq_true

theorem mergeSort_nameLe_eq_iff {left right : List (Utf8String × Value)}
    (hleft : (left.map Prod.fst).Nodup) (hright : (right.map Prod.fst).Nodup) :
    left.mergeSort nameLe = right.mergeSort nameLe ↔
      left.length = right.length ∧ ∀ field ∈ left, field ∈ right := by
  have hperm := List.mergeSort_perm left nameLe
  have hperm' := List.mergeSort_perm right nameLe
  constructor
  · intro hsorted
    have hboth : left.Perm right := hperm.symm.trans (hsorted ▸ hperm')
    exact ⟨hboth.length_eq, fun field => hboth.mem_iff.mp⟩
  · rintro ⟨hlength, hsubset⟩
    have hboth : left.Perm right :=
      (List.subperm_of_subset (List.Nodup.of_map _ hleft) hsubset).perm_of_length_le hlength.ge
    exact eq_of_pairwise_names (pairwise_mergeSort_nameLe left) (pairwise_mergeSort_nameLe right)
      ((hperm'.map Prod.fst).nodup_iff.mpr hright) (hperm.trans (hboth.trans hperm'.symm))

theorem wellFormed_sorted {value : Value} (hvalue : value.WellFormed) :
    value.sorted.WellFormed := by
  induction value using inductionOn with
  | null => trivial
  | bool value => trivial
  | number literal => exact hvalue
  | string text => trivial
  | array elements ih =>
      rw [sorted, sortedElements_eq]
      refine wellFormedElements_iff.mpr fun element helement => ?_
      obtain ⟨original, horiginal, rfl⟩ := List.mem_map.mp helement
      exact ih original horiginal (wellFormedElements_iff.mp hvalue original horiginal)
  | object fields ih =>
      have hperm := List.mergeSort_perm (sortedFields fields) nameLe
      refine ⟨(hperm.map Prod.fst).nodup_iff.mpr ?_,
        wellFormedFields_iff.mpr fun field hfield => ?_⟩
      · rw [map_fst_sortedFields]
        exact hvalue.1
      · rw [List.mem_mergeSort, sortedFields_eq] at hfield
        obtain ⟨original, horiginal, rfl⟩ := List.mem_map.mp hfield
        exact ih original horiginal (wellFormedFields_iff.mp hvalue.2 original horiginal)

/-- Sorting twice is sorting once. -/
theorem sorted_sorted (value : Value) : value.sorted.sorted = value.sorted := by
  induction value using inductionOn with
  | null => rfl
  | bool value => rfl
  | number literal => rfl
  | string text => rfl
  | array elements ih =>
      have helements : elements.map (sorted ∘ sorted) = elements.map sorted :=
        List.map_congr_left ih
      rw [sorted, sorted, sortedElements_eq, sortedElements_eq, List.map_map, helements]
  | object fields ih =>
      have hfields : sortedFields (sortedFields fields) = sortedFields fields := by
        rw [sortedFields_eq, sortedFields_eq, List.map_map]
        exact List.map_congr_left fun field hfield => Prod.ext rfl (ih field hfield)
      have hagain : sortedFields ((sortedFields fields).mergeSort nameLe) =
          (sortedFields fields).mergeSort nameLe := by
        have hmap : ((sortedFields fields).mergeSort nameLe).map
            (fun field => (field.1, field.2.sorted)) =
              ((sortedFields fields).map fun field => (field.1, field.2.sorted)).mergeSort
                nameLe := by
          apply List.map_mergeSort
          intro field _ other _
          rfl
        rw [sortedFields_eq, hmap, ← sortedFields_eq, hfields]
      rw [sorted, sorted, hagain, List.mergeSort_of_pairwise]
      exact (pairwise_mergeSort_nameLe _).imp decide_eq_true

theorem find?_name {fields : List (Utf8String × Value)} (hnodup : (fields.map Prod.fst).Nodup)
    {field : Utf8String × Value} (hfield : field ∈ fields) :
    fields.find? (fun other => other.1 = field.1) = some field := by
  obtain ⟨other, hother⟩ := Option.isSome_iff_exists.mp (List.find?_isSome.mpr
    ⟨field, hfield, decide_eq_true rfl⟩ :
      (fields.find? fun other => other.1 = field.1).isSome = true)
  have hname : other.1 = field.1 := by simpa using List.find?_some hother
  rw [hother, List.inj_on_of_nodup_map hnodup (List.mem_of_find?_eq_some hother) hfield hname]

/-- Two values are the same up to the order of fields exactly if they are sorted into one. -/
theorem same_iff {left right : Value} (hleft : left.WellFormed) (hright : right.WellFormed) :
    left.same right = true ↔ left.sorted = right.sorted := by
  induction left using inductionOn generalizing right with
  | null => cases right <;> simp [same, sorted]
  | bool value => cases right <;> simp [same, sorted]
  | number literal => cases right <;> simp [same, sorted]
  | string text => cases right <;> simp [same, sorted]
  | array elements ih =>
      cases right with
      | array others =>
          rw [same, sameElements_iff, sorted, sorted, sortedElements_eq, sortedElements_eq,
            array.injEq, ← List.forall₂_eq_eq_eq, List.forall₂_map_left_iff,
            List.forall₂_map_right_iff]
          have hboth : ∀ element ∈ elements, ∀ other ∈ others,
              (element.same other = true ↔ element.sorted = other.sorted) :=
            fun element helement other hother => ih element helement
              (wellFormedElements_iff.mp hleft element helement)
              (wellFormedElements_iff.mp hright other hother)
          rw [List.forall₂_iff_zip, List.forall₂_iff_zip]
          refine and_congr_right fun _ => forall₂_congr fun element other => ?_
          refine forall_congr' fun hzip => ?_
          obtain ⟨helement, hother⟩ := List.of_mem_zip hzip
          exact hboth element helement other hother
      | _ => simp [same, sorted]
  | object fields ih =>
      cases right with
      | object others =>
          have hboth : ∀ field ∈ fields, ∀ other ∈ others,
              (field.2.same other.2 = true ↔ field.2.sorted = other.2.sorted) :=
            fun field hfield other hother => ih field hfield
              (wellFormedFields_iff.mp hleft.2 field hfield)
              (wellFormedFields_iff.mp hright.2 other hother)
          rw [same, Bool.and_eq_true, beq_iff_eq, sameFields_iff, sorted, sorted, object.injEq,
            mergeSort_nameLe_eq_iff (by rw [map_fst_sortedFields]; exact hleft.1)
              (by rw [map_fst_sortedFields]; exact hright.1), sortedFields_eq, sortedFields_eq,
            List.length_map, List.length_map, List.forall_mem_map]
          refine and_congr_right fun _ => forall₂_congr fun field hfield => ?_
          rw [List.mem_map]
          constructor
          · rintro ⟨other, hfind, hsame⟩
            have hother := List.mem_of_find?_eq_some hfind
            have hname : other.1 = field.1 := by simpa using List.find?_some hfind
            exact ⟨other, hother, Prod.ext hname ((hboth field hfield other hother).mp hsame).symm⟩
          · rintro ⟨other, hother, heq⟩
            rw [Prod.mk.injEq] at heq
            refine ⟨other, ?_, (hboth field hfield other hother).mpr heq.2.symm⟩
            rw [← heq.1]
            exact find?_name hright.1 hother
      | _ => simp [same, sorted]

/-! ## Writing sorted fields -/

/-- With `sort_keys` the sorted value is written. -/
theorem dumps_sortKeys (compact ensureAscii : Bool) (value : Value) :
    value.dumps ⟨true, compact, ensureAscii⟩ =
      value.sorted.dumps ⟨false, compact, ensureAscii⟩ := by
  induction value using inductionOn with
  | null => rfl
  | bool value => cases value <;> rfl
  | number literal => rfl
  | string text => rfl
  | array elements ih =>
      rw [sorted, dumps, dumps, dumpsElements_eq, dumpsElements_eq, sortedElements_eq,
        List.map_map, List.map_congr_left ih]
      rfl
  | object fields ih =>
      have hfields :
          (fields.map fun field => (field.1, field.2.dumps ⟨true, compact, ensureAscii⟩)) =
          (sortedFields fields).map fun field =>
            (field.1, field.2.dumps ⟨false, compact, ensureAscii⟩) := by
        rw [sortedFields_eq, List.map_map]
        exact List.map_congr_left fun field hfield => Prod.ext rfl (ih field hfield)
      have hsorted : ((sortedFields fields).map fun field =>
          (field.1, field.2.dumps ⟨false, compact, ensureAscii⟩)).mergeSort keyLe =
            ((sortedFields fields).mergeSort nameLe).map fun field =>
              (field.1, field.2.dumps ⟨false, compact, ensureAscii⟩) := by
        symm
        apply List.map_mergeSort
        intro field _ other _
        rfl
      rw [sorted, dumps, dumps, dumpsFields_eq, dumpsFields_eq, hfields]
      simp only [if_true, Bool.false_eq_true, if_false, hsorted]

end Legroom.Json.Value
