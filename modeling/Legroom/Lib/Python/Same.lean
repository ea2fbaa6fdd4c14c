import Legroom.Lib.Python.Access
import Legroom.Lib.Python.Dict

/-!
# Equality of Python values

A dictionary has each key once.  Two dictionaries are equal when they have as many keys
and the values of the keys are equal, in whatever order the keys came.
-/

namespace Legroom.Python

/-- A property of a value follows from that of its items, or of the values of its entries. -/
theorem Value.inductionOn {motive : Value → Prop} (none : motive .none)
    (number : ∀ value, motive (.number value)) (str : ∀ text, motive (.str text))
    (list : ∀ items, (∀ item ∈ items, motive item) → motive (.list items))
    (dict : ∀ entries, (∀ entry ∈ entries, motive entry.2) → motive (.dict entries))
    (value : Value) : motive value :=
  @Value.rec motive (fun items => ∀ item ∈ items, motive item)
    (fun entries => ∀ entry ∈ entries, motive entry.2) (fun entry => motive entry.2)
    none number str list dict
    (fun _ hnil => absurd hnil List.not_mem_nil)
    (fun _ _ hhead htail => List.forall_mem_cons.mpr ⟨hhead, htail⟩)
    (fun _ hnil => absurd hnil List.not_mem_nil)
    (fun _ _ hhead htail => List.forall_mem_cons.mpr ⟨hhead, htail⟩)
    (fun _ _ hvalue => hvalue) value

mutual

/-- No dictionary in the value has a key twice. -/
def Value.WellKeyed : Value → Prop
  | .list items => WellKeyedItems items
  | .dict entries => (entries.map Prod.fst).Nodup ∧ WellKeyedEntries entries
  | _ => True

def WellKeyedItems : List Value → Prop
  | [] => True
  | item :: items => item.WellKeyed ∧ WellKeyedItems items

def WellKeyedEntries : List (Text × Value) → Prop
  | [] => True
  | entry :: entries => entry.2.WellKeyed ∧ WellKeyedEntries entries

end

theorem Value.wellKeyed_str (text : Text) : (Value.str text).WellKeyed := by
  rw [Value.WellKeyed]
  · trivial
  · exact nofun
  · exact nofun

theorem wellKeyedItems_iff {items : List Value} :
    WellKeyedItems items ↔ ∀ item ∈ items, item.WellKeyed := by
  induction items with
  | nil => exact iff_of_true trivial fun item hitem => absurd hitem List.not_mem_nil
  | cons item items ih => rw [WellKeyedItems, ih, List.forall_mem_cons]

theorem wellKeyedEntries_iff {entries : List (Text × Value)} :
    WellKeyedEntries entries ↔ ∀ entry ∈ entries, entry.2.WellKeyed := by
  induction entries with
  | nil => exact iff_of_true trivial fun entry hentry => absurd hentry List.not_mem_nil
  | cons entry entries ih => rw [WellKeyedEntries, ih, List.forall_mem_cons]

namespace Value

theorem WellKeyed.get {value found : Value} {key : Text} (hkeyed : value.WellKeyed)
    (hfound : value.get key = some found) : found.WellKeyed := by
  cases value with
  | dict entries =>
      rw [Value.WellKeyed] at hkeyed
      have hmem := (Dict.lookup_eq_some_iff_mem hkeyed.1).mp hfound
      exact wellKeyedEntries_iff.mp hkeyed.2 _ hmem
  | _ => cases hfound

theorem WellKeyed.of_mem {items : List Value} {item : Value} (hkeyed : (list items).WellKeyed)
    (hitem : item ∈ items) : item.WellKeyed := by
  rw [Value.WellKeyed] at hkeyed
  exact wellKeyedItems_iff.mp hkeyed item hitem

end Value

/-! ## Equality -/

theorem sameEntries_iff {entries others : List (Text × Value)} :
    sameEntries entries others = true ↔
      ∀ entry ∈ entries, ∃ other, others.lookup entry.1 = some other ∧
        entry.2.same other = true := by
  induction entries with
  | nil => exact iff_of_true (by rw [sameEntries]) fun entry hentry => absurd hentry List.not_mem_nil
  | cons entry entries ih =>
      rw [sameEntries, Bool.and_eq_true, ih, List.forall_mem_cons]
      refine and_congr_left fun _ => ?_
      cases others.lookup entry.1 with
      | none => exact iff_of_false Bool.false_ne_true fun hsome => nomatch hsome
      | some other =>
          constructor
          · exact fun hsame => ⟨other, rfl, hsame⟩
          · rintro ⟨found, hfound, hsame⟩
            exact Option.some_inj.mp hfound ▸ hsame

mutual

theorem Value.same_self : ∀ {value : Value}, value.WellKeyed → value.same value = true
  | .none, _ => by rw [Value.same]
  | .number number, _ => by rw [Value.same]; exact decide_eq_true rfl
  | .str text, _ => by rw [Value.same]; exact decide_eq_true rfl
  | .list items, hkeyed => by
      rw [Value.WellKeyed] at hkeyed
      rw [Value.same]
      exact sameItems_self hkeyed
  | .dict entries, hkeyed => by
      rw [Value.WellKeyed] at hkeyed
      rw [Value.same, decide_eq_true rfl, Bool.true_and]
      exact sameEntries_self hkeyed.2 fun entry hentry =>
        (Dict.lookup_eq_some_iff_mem hkeyed.1).mpr hentry

theorem sameItems_self : ∀ {items : List Value}, WellKeyedItems items →
    sameItems items items = true
  | [], _ => by rw [sameItems]
  | item :: items, hkeyed => by
      rw [WellKeyedItems] at hkeyed
      rw [sameItems, Value.same_self hkeyed.1, sameItems_self hkeyed.2, Bool.true_and]

theorem sameEntries_self : ∀ {entries others : List (Text × Value)}, WellKeyedEntries entries →
    (∀ entry ∈ entries, others.lookup entry.1 = some entry.2) →
    sameEntries entries others = true
  | [], _, _, _ => by rw [sameEntries]
  | (key, value) :: entries, others, hkeyed, hothers => by
      rw [WellKeyedEntries] at hkeyed
      rw [List.forall_mem_cons] at hothers
      rw [sameEntries, hothers.1]
      dsimp only
      rw [Value.same_self hkeyed.1, sameEntries_self hkeyed.2 hothers.2, Bool.true_and]

end

theorem same_list_iff {left right : List Value} :
    sameItems left right = true ↔
      List.Forall₂ (fun left right : Value => left.same right = true) left right := by
  induction left generalizing right with
  | nil =>
      cases right with
      | nil => exact iff_of_true (by rw [sameItems]) .nil
      | cons other right => exact iff_of_false (fun hsame => nomatch hsame) nofun
  | cons item left ih =>
      cases right with
      | nil => exact iff_of_false (fun hsame => nomatch hsame) nofun
      | cons other right => rw [sameItems, Bool.and_eq_true, ih, List.forall₂_cons]

/-- Lists of which equal items are the same are equal only if they are the same. -/
theorem sameItems_iff_eq {left right : List Value}
    (hitems : List.Forall₂ (fun item other : Value => item.same other = true ↔ item = other)
      left right) : sameItems left right = true ↔ left = right := by
  rw [same_list_iff]
  induction hitems with
  | nil => exact iff_of_true .nil rfl
  | cons hitem hitems ih => rw [List.forall₂_cons, hitem, ih, List.cons_eq_cons]

theorem same_dict_iff {left right : List (Text × Value)} (hnodup : (left.map Prod.fst).Nodup) :
    (Value.dict left).same (.dict right) = true ↔
      left.length = right.length ∧ ∀ key value, left.lookup key = some value →
        ∃ other, right.lookup key = some other ∧ value.same other = true := by
  rw [Value.same, Bool.and_eq_true, decide_eq_true_iff, sameEntries_iff]
  refine and_congr_right fun _ => ⟨fun hall key value hvalue => ?_, fun hall entry hentry => ?_⟩
  · exact hall (key, value) ((Dict.lookup_eq_some_iff_mem hnodup).mp hvalue)
  · exact hall entry.1 entry.2 ((Dict.lookup_eq_some_iff_mem hnodup).mpr hentry)

/-! ## Changed entries -/

namespace Value

variable {key : Text} {entries : List (Text × Value)}

theorem map_fst_setEntry (hkey : (entries.lookup key).isSome = true) (value : Value) :
    (setEntry key value entries).map Prod.fst = entries.map Prod.fst := by
  induction entries with
  | nil => cases hkey
  | cons entry entries ih =>
      rw [setEntry]
      split_ifs with hentry
      · exact congrArg (· :: _) hentry.symm
      · rw [List.lookup_cons, beq_eq_false_iff_ne.mpr fun heq => hentry heq.symm] at hkey
        rw [List.map_cons, List.map_cons, ih hkey]

variable {value : Value}

theorem setEntry_lookup (hvalue : entries.lookup key = some value) :
    setEntry key value entries = entries := by
  induction entries with
  | nil => cases hvalue
  | cons entry entries ih =>
      rw [setEntry]
      split_ifs with hentry
      · rw [List.lookup_cons, beq_iff_eq.mpr hentry.symm] at hvalue
        rw [← Option.some_inj.mp hvalue, ← hentry]
      · rw [List.lookup_cons, beq_eq_false_iff_ne.mpr fun heq => hentry heq.symm] at hvalue
        rw [ih hvalue]

variable {found : Value}

/-- The value that a key already has. -/
theorem put_get (hfound : value.get key = some found) : value.put key found = value := by
  cases value with
  | dict entries => exact congrArg dict (setEntry_lookup hfound)
  | _ => cases hfound

theorem nodup_setEntry (hnodup : (entries.map Prod.fst).Nodup) (key : Text) (value : Value) :
    ((setEntry key value entries).map Prod.fst).Nodup := by
  cases hlookup : entries.lookup key with
  | some found => rwa [map_fst_setEntry (Option.isSome_of_eq_some hlookup) value]
  | none =>
      have hkeys : ∀ rest : List (Text × Value), rest.lookup key = Option.none →
          key ∉ rest.map Prod.fst ∧ setEntry key value rest = rest ++ [(key, value)] := by
        intro rest hrest
        induction rest with
        | nil => exact ⟨List.not_mem_nil, rfl⟩
        | cons entry rest ih =>
            rw [List.lookup_cons] at hrest
            split at hrest
            · cases hrest
            · next hne =>
              have hentry : entry.1 ≠ key := fun heq => beq_eq_false_iff_ne.mp hne heq.symm
              obtain ⟨hmem, hset⟩ := ih hrest
              rw [setEntry, if_neg hentry, hset]
              exact ⟨List.not_mem_cons_of_ne_of_not_mem hentry.symm hmem, rfl⟩
      obtain ⟨hmem, hset⟩ := hkeys entries hlookup
      rw [hset, List.map_append]
      exact hnodup.append (List.nodup_singleton key) (List.disjoint_singleton.mpr hmem)

theorem WellKeyed.put {new : Value} (hkeyed : value.WellKeyed) (key : Text) (hnew : new.WellKeyed) :
    (value.put key new).WellKeyed := by
  cases value with
  | dict entries =>
      rw [Value.WellKeyed] at hkeyed
      rw [Value.put, Value.WellKeyed]
      have hnodup := nodup_setEntry hkeyed.1 key new
      refine ⟨hnodup, wellKeyedEntries_iff.mpr fun entry hentry => ?_⟩
      have hlookup := (Dict.lookup_eq_some_iff_mem hnodup).mpr hentry
      rw [lookup_setEntry] at hlookup
      split_ifs at hlookup
      · exact Option.some_inj.mp hlookup ▸ hnew
      · exact wellKeyedEntries_iff.mp hkeyed.2 entry
          ((Dict.lookup_eq_some_iff_mem hkeyed.1).mp hlookup)
  | _ => exact hkeyed

/-- Two values for one key of a dictionary. -/
theorem same_put {left right : Value} (hkeyed : value.WellKeyed)
    (hfound : value.get key = some found) :
    (value.put key left).same (value.put key right) = true ↔ left.same right = true := by
  cases value with
  | dict entries =>
      have hself := hkeyed
      rw [Value.WellKeyed] at hkeyed
      have hkeys := map_fst_setEntry (Option.isSome_of_eq_some hfound) left
      have hlength : (setEntry key left entries).length = (setEntry key right entries).length := by
        rw [← List.length_map (f := Prod.fst), hkeys, ← List.length_map (f := Prod.fst),
          map_fst_setEntry (Option.isSome_of_eq_some hfound) right]
      rw [Value.put, Value.put, same_dict_iff (hkeys ▸ hkeyed.1)]
      constructor
      · rintro ⟨-, hall⟩
        obtain ⟨other, hother, hsame⟩ := hall key left (by rw [lookup_setEntry, if_pos rfl])
        rw [lookup_setEntry, if_pos rfl] at hother
        exact Option.some_inj.mp hother ▸ hsame
      · refine fun hsame => ⟨hlength, fun other value hvalue => ?_⟩
        rw [lookup_setEntry] at hvalue ⊢
        split_ifs at hvalue ⊢ with hother
        · exact ⟨right, rfl, Option.some_inj.mp hvalue ▸ hsame⟩
        · exact ⟨value, hvalue, same_self (hself.get hvalue)⟩
  | _ => cases hfound

/-- A new value for a key leaves the dictionary equal when it is the value itself. -/
theorem same_put_self_iff {new : Value} (hkeyed : value.WellKeyed)
    (hfound : value.get key = some found) (hnew : found.same new = true ↔ found = new) :
    value.same (value.put key new) = true ↔ value = value.put key new := by
  constructor
  · intro hsame
    have hput : (value.put key found).same (value.put key new) = true := by
      rwa [put_get hfound]
    rw [← hnew.mp ((same_put hkeyed hfound).mp hput), put_get hfound]
  · intro heq
    rw [← heq]
    exact same_self hkeyed

/-- Equal values have equal values for a key. -/
theorem same_get {other : Value} (hkeyed : value.WellKeyed) (hsame : value.same other = true)
    (hfound : value.get key = some found) :
    ∃ matching, other.get key = some matching ∧ found.same matching = true := by
  cases value with
  | dict entries =>
      cases other with
      | dict others =>
          rw [Value.WellKeyed] at hkeyed
          exact ((same_dict_iff hkeyed.1).mp hsame).2 key found hfound
      | _ => cases hsame
  | _ => cases hfound

end Value

end Legroom.Python
