import Legroom.Lib.Json.Put
import Mathlib.Data.List.Nodup

/-!
# The Bedrock envelope

The version is put in front of the other fields.  Taking it out of its place puts
the last field there, which goes unnoticed only near the end of the object.
-/

namespace Legroom.Bedrock

open Json Utf8

def anthropicVersionKey : Utf8String := constant "anthropic_version"

inductive EnvelopeError where
  | notJson
  | notObject
  | missingAnthropicVersion

namespace BedrockEnvelope

def ensureAnthropicVersionFirst (body : Bytes) : Except EnvelopeError Bytes :=
  match valueFromSlice body with
  | none => .error .notJson
  | some (.object fields) =>
      match (Value.object fields).get anthropicVersionKey with
      | none => .error .missingAnthropicVersion
      | some version =>
          if fields.head?.any (·.1 = anthropicVersionKey) then .ok body
          else
            .ok (Value.object (Value.collect ((anthropicVersionKey, version) ::
              Value.swapRemove fields anthropicVersionKey))).toJson.bytes
  | some _ => .error .notObject

end BedrockEnvelope

/-! ## What becomes of the fields -/

section

variable {α : Type*} {items : List α}

/-- The last of the items comes first. -/
def lastFirst (items : List α) : List α := items.getLast?.toList ++ items.dropLast

theorem lastFirst_concat (front : List α) (last : α) :
    lastFirst (front ++ [last]) = last :: front := by
  simp [lastFirst]

theorem lastFirst_perm (items : List α) : (lastFirst items).Perm items := by
  rcases items.eq_nil_or_concat' with rfl | ⟨front, last, rfl⟩
  · rfl
  · rw [lastFirst_concat]
    exact (List.perm_append_singleton last front).symm

theorem lastFirst_eq_iff (hnodup : items.Nodup) : lastFirst items = items ↔ items.length ≤ 1 := by
  rcases items.eq_nil_or_concat' with rfl | ⟨front, last, rfl⟩
  · simp [lastFirst]
  · rw [lastFirst_concat]
    cases front with
    | nil => simp
    | cons first front =>
        have hne : last ≠ first := by
          rintro rfl
          simp at hnodup
        simp [hne]

end

variable {fields before after : List (Utf8String × Value)} {name : Utf8String} {value : Value}

theorem swapRemove_append (hbefore : ∀ field ∈ before, field.1 ≠ name) :
    Value.swapRemove (before ++ (name, value) :: after) name = before ++ lastFirst after := by
  have hindex : (before ++ (name, value) :: after).findIdx? (·.1 = name) = some before.length := by
    rw [List.findIdx?_append, List.findIdx?_eq_none_iff.mpr (by simpa using hbefore),
      List.findIdx?_cons]
    simp
  rw [Value.swapRemove, hindex]
  rcases after.eq_nil_or_concat' with rfl | ⟨front, last, rfl⟩
  · simp [lastFirst]
  · rw [lastFirst_concat, ← List.cons_append, ← List.append_assoc, List.getLast?_concat]
    simp only
    rw [List.append_assoc, List.set_append_right _ _ le_rfl, Nat.sub_self, List.cons_append,
      List.set_cons_zero, ← List.cons_append, ← List.append_assoc, List.dropLast_concat]

/-- A field stands in one place. -/
theorem exists_append_of_get (hnodup : (fields.map Prod.fst).Nodup)
    (hvalue : (Value.object fields).get name = some value) :
    ∃ before after, fields = before ++ (name, value) :: after ∧
      (∀ field ∈ before, field.1 ≠ name) ∧ ∀ field ∈ after, field.1 ≠ name := by
  obtain ⟨⟨found, _⟩, hfound, rfl⟩ := Option.map_eq_some_iff.mp hvalue
  obtain ⟨hname, before, after, rfl, hbefore⟩ := List.find?_eq_some_iff_append.mp hfound
  obtain rfl : found = name := of_decide_eq_true hname
  refine ⟨before, after, rfl, by simpa using hbefore, fun field hfield hsame => ?_⟩
  rw [List.map_append, List.map_cons, List.nodup_append] at hnodup
  exact (List.nodup_cons.mp hnodup.2.1).1 (List.mem_map.mpr ⟨field, hfield, hsame⟩)

/-- What is re-emitted has the version first, and its fields and values are the old ones. -/
structure Reemits (fields : List (Utf8String × Value)) (out : Bytes)
    (rebuilt : List (Utf8String × Value)) : Prop where
  read : valueFromSlice out = some (.object rebuilt)
  head : rebuilt.head?.map Prod.fst = some anthropicVersionKey
  perm : rebuilt.Perm fields
  again : BedrockEnvelope.ensureAnthropicVersionFirst out = .ok out

/-- The other fields are as they were, in their order. -/
def SameOrder (fields rebuilt : List (Utf8String × Value)) : Prop :=
  rebuilt.filter (·.1 ≠ anthropicVersionKey) = fields.filter (·.1 ≠ anthropicVersionKey)

variable {body : Bytes}

theorem ensureAnthropicVersionFirst_of_head (hbody : valueFromSlice body = some (.object fields))
    (hhead : fields.head?.map Prod.fst = some anthropicVersionKey) :
    BedrockEnvelope.ensureAnthropicVersionFirst body = .ok body := by
  obtain ⟨⟨name, value⟩, hfirst, rfl⟩ := Option.map_eq_some_iff.mp hhead
  obtain ⟨rest, rfl⟩ := List.head?_eq_some_iff.mp hfirst
  simp [BedrockEnvelope.ensureAnthropicVersionFirst, hbody, Value.get]

/-- A version behind other fields: what followed it starts with its last field. -/
theorem ensureAnthropicVersionFirst_of_append
    (hfields : fields = before ++ (anthropicVersionKey, value) :: after)
    (hbody : valueFromSlice body = some (.object fields))
    (hbefore : ∀ field ∈ before, field.1 ≠ anthropicVersionKey) (hne : before ≠ []) :
    ∃ out, BedrockEnvelope.ensureAnthropicVersionFirst body = .ok out ∧
      Reemits fields out ((anthropicVersionKey, value) :: (before ++ lastFirst after)) := by
  obtain ⟨first, front, rfl⟩ := List.exists_cons_of_ne_nil hne
  have hget : (Value.object fields).get anthropicVersionKey = some value := by
    rw [Value.get, hfields, List.find?_append,
      List.find?_eq_none.mpr (by simpa using hbefore)]
    simp
  have hperm : ((anthropicVersionKey, value) :: (first :: front ++ lastFirst after)).Perm fields :=
    hfields ▸ (((lastFirst_perm after).append_left (first :: front)).cons _).trans
      List.perm_middle.symm
  have hvalue := wellFormed_valueFromSlice hbody
  have hnew : (Value.object ((anthropicVersionKey, value) ::
      (first :: front ++ lastFirst after))).WellFormed :=
    ⟨((hperm.map Prod.fst).nodup_iff).mpr hvalue.1, Value.wellFormedFields_iff.mpr fun field hfield =>
      Value.wellFormedFields_iff.mp hvalue.2 field (hperm.subset hfield)⟩
  have hdepth := depth_valueFromSlice hbody
  obtain ⟨limit, hlimit⟩ := Nat.exists_eq_add_of_le' (Value.one_le_depth_object fields)
  have hread := valueFromSlice_toJson hnew ((Value.depth_object_le.mpr fun field hfield =>
    Value.depth_object_le.mp hlimit.le field (hperm.subset hfield)).trans_lt (hlimit ▸ hdepth))
  refine ⟨_, ?_, hread, rfl, hperm, ensureAnthropicVersionFirst_of_head hread rfl⟩
  have hfirst : first.1 ≠ anthropicVersionKey := hbefore first List.mem_cons_self
  rw [BedrockEnvelope.ensureAnthropicVersionFirst, hbody]
  simp only [hget]
  rw [if_neg (by rw [hfields]; simpa using hfirst), hfields, swapRemove_append hbefore,
    Value.collect_of_nodup hnew.1]

theorem sameOrder_append_iff (hafter : ∀ field ∈ after, field.1 ≠ name) (hnodup : after.Nodup) :
    ((name, value) :: (before ++ lastFirst after)).filter (·.1 ≠ name) =
        (before ++ (name, value) :: after).filter (·.1 ≠ name) ↔ after.length ≤ 1 := by
  have hkept : (lastFirst after).filter (·.1 ≠ name) = lastFirst after :=
    List.filter_eq_self.mpr fun field hfield =>
      decide_eq_true (hafter field ((lastFirst_perm after).subset hfield))
  rw [List.filter_cons_of_neg (by simp), List.filter_append, List.filter_append,
    List.filter_cons_of_neg (by simp), hkept, List.append_cancel_left_eq,
    List.filter_eq_self.mpr (by simpa using hafter), lastFirst_eq_iff hnodup]

/-- A body that has a version is re-emitted with the version first and with the fields
and values it had, as it is if the version was first, and re-emitting it again changes
nothing.  The other fields keep their order just if the version was first or at most
one field followed it. -/
theorem ensureAnthropicVersionFirst_sameOrder_iff {version : Value}
    (hbody : valueFromSlice body = some (.object fields))
    (hversion : (Value.object fields).get anthropicVersionKey = some version) :
    ∃ out rebuilt, BedrockEnvelope.ensureAnthropicVersionFirst body = .ok out ∧
      Reemits fields out rebuilt ∧
      (fields.head?.map Prod.fst = some anthropicVersionKey → out = body) ∧
      (SameOrder fields rebuilt ↔ fields.head?.map Prod.fst = some anthropicVersionKey ∨
        (fields.dropWhile (·.1 ≠ anthropicVersionKey)).length ≤ 2) := by
  have hnodup := (wellFormed_valueFromSlice hbody).1
  by_cases hhead : fields.head?.map Prod.fst = some anthropicVersionKey
  · have hout := ensureAnthropicVersionFirst_of_head hbody hhead
    exact ⟨body, fields, hout, ⟨hbody, hhead, .refl fields, hout⟩, fun _ => rfl,
      iff_of_true rfl (.inl hhead)⟩
  · obtain ⟨before, after, rfl, hbefore, hafter⟩ := exists_append_of_get hnodup hversion
    have hne : before ≠ [] := by
      rintro rfl
      exact hhead rfl
    obtain ⟨out, hout, hreemits⟩ :=
      ensureAnthropicVersionFirst_of_append rfl hbody hbefore hne
    refine ⟨out, _, hout, hreemits, fun hfirst => absurd hfirst hhead, ?_⟩
    rw [or_iff_right hhead, SameOrder, sameOrder_append_iff hafter
      hnodup.of_map.of_append_right.of_cons, List.dropWhile_append,
      List.dropWhile_eq_nil_iff.mpr (by simpa using hbefore)]
    simp

/-- With two fields behind the version the last one gets in front of the other. -/
theorem ensureAnthropicVersionFirst_sameOrder_three :
    ∃ body fields out rebuilt, valueFromSlice body = some (.object fields) ∧
      BedrockEnvelope.ensureAnthropicVersionFirst body = .ok out ∧ Reemits fields out rebuilt ∧
      ¬SameOrder fields rebuilt := by
  have hbody : valueFromSlice (ascii "\x7b\"a\":1,\"anthropic_version\":2,\"b\":3,\"c\":4\x7d") =
      some (.object [(constant "a", .number ⟨ascii "1", by decide⟩),
        (anthropicVersionKey, .number ⟨ascii "2", by decide⟩),
        (constant "b", .number ⟨ascii "3", by decide⟩),
        (constant "c", .number ⟨ascii "4", by decide⟩)]) := by
    rfl
  obtain ⟨out, rebuilt, hout, hreemits, -, horder⟩ :=
    ensureAnthropicVersionFirst_sameOrder_iff hbody rfl
  refine ⟨_, _, out, rebuilt, hbody, hout, hreemits, fun hsame => ?_⟩
  exact absurd (horder.mp hsame) (by decide)

end Legroom.Bedrock
