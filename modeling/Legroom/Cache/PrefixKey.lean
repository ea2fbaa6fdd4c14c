import Legroom.Cache.PrefixTracker
import Legroom.Lib.Python.Same

/-!
# What the comparison of prefixes erases

Two encodings of one message differ in annotations of messages and blocks.  The projection
erases keys of these names at any depth, also inside payloads that are not under one of the
opaque keys.
-/

namespace Legroom.Cache.PrefixKey

open Python

/-! ## Payloads -/

mutual

/-- Nothing in a payload is taken for an annotation, a bare text or a block of no content. -/
def isPlain : Value → Bool
  | .list items => plainItems items
  | .dict entries => plainEntries entries
  | _ => true

def plainItems : List Value → Bool
  | [] => true
  | item :: items => !isEmptyDict item && isPlain item && plainItems items

def plainEntries : List (Text × Value) → Bool
  | [] => true
  | (key, value) :: entries =>
      !nonSemanticKeys.contains key &&
        (opaquePayloadKeys.contains key ||
          match value with
          | .str _ => key != text "content"
          | value => isPlain value) &&
        plainEntries entries

end

/-! ## Messages and blocks -/

mutual

/-- What a model sees of a message or a block.  A list in it is one of blocks, a dictionary in it
is a payload. -/
def visible : Value → Value
  | .dict entries => .dict (visibleEntries entries)
  | .list items => .list (visibleItems items)
  | value => value

/-- Blocks with annotations only are not seen. -/
def visibleItems : List Value → List Value
  | [] => []
  | item :: items =>
      let seen := visible item
      if isEmptyDict seen then visibleItems items else seen :: visibleItems items

def visibleEntries : List (Text × Value) → List (Text × Value)
  | [] => []
  | (key, value) :: entries =>
      if key ∈ nonSemanticKeys then visibleEntries entries
      else if key ∈ opaquePayloadKeys then (key, value) :: visibleEntries entries
      else
        let seen :=
          match value with
          | .str content =>
              if key = text "content" then textBlocks content else .str content
          | .dict payload => .dict payload
          | value => visible value
        (key, seen) :: visibleEntries entries

end

mutual

/-- No payload of a message or a block, or of the blocks in it, has a collision. -/
def collisionless : Value → Bool
  | .dict entries => collisionlessEntries entries
  | .list items => collisionlessItems items
  | _ => true

def collisionlessItems : List Value → Bool
  | [] => true
  | item :: items => collisionless item && collisionlessItems items

def collisionlessEntries : List (Text × Value) → Bool
  | [] => true
  | (key, value) :: entries =>
      (nonSemanticKeys.contains key || opaquePayloadKeys.contains key ||
        match value with
        | .dict payload => isPlain (.dict payload)
        | value => collisionless value) &&
      collisionlessEntries entries

end

/-- Two lists of messages agree on what a model sees. -/
def visiblySame (messages others : List Value) : Bool :=
  (visible (.list messages)).same (visible (.list others))

/-! ## Fields -/

/-- The value of a key that is kept. -/
def canonField (key : Text) (value : Value) : Value :=
  if key ∈ opaquePayloadKeys then value
  else
    match value with
    | .str content => if key = text "content" then textBlocks content else .str content
    | value => canonicalizeForPrefixCompare value

def visibleField (key : Text) (value : Value) : Value :=
  if key ∈ opaquePayloadKeys then value
  else
    match value with
    | .str content => if key = text "content" then textBlocks content else .str content
    | .dict payload => .dict payload
    | value => visible value

def plainField (key : Text) (value : Value) : Bool :=
  opaquePayloadKeys.contains key ||
    match value with
    | .str _ => key != text "content"
    | value => isPlain value

def collisionlessField (key : Text) (value : Value) : Bool :=
  opaquePayloadKeys.contains key ||
    match value with
    | .dict payload => isPlain (.dict payload)
    | value => collisionless value

/-- The entries that are no annotations. -/
def kept (entries : List (Text × Value)) : List (Text × Value) :=
  entries.filter fun entry => entry.1 ∉ nonSemanticKeys

variable (key : Text)

theorem canonicalizeEntries_cons (value : Value) (entries : List (Text × Value)) :
    canonicalizeEntries ((key, value) :: entries) =
      if key ∈ nonSemanticKeys then canonicalizeEntries entries
      else (key, canonField key value) :: canonicalizeEntries entries := by
  cases value <;> simp only [canonicalizeEntries, canonField] <;> split_ifs <;> rfl

theorem visibleEntries_cons (value : Value) (entries : List (Text × Value)) :
    visibleEntries ((key, value) :: entries) =
      if key ∈ nonSemanticKeys then visibleEntries entries
      else (key, visibleField key value) :: visibleEntries entries := by
  cases value <;> simp only [visibleEntries, visibleField] <;> split_ifs <;> rfl

theorem canonicalizeEntries_eq (entries : List (Text × Value)) :
    canonicalizeEntries entries =
      (kept entries).map fun entry => (entry.1, canonField entry.1 entry.2) := by
  induction entries with
  | nil => rfl
  | cons entry entries ih =>
      rw [canonicalizeEntries_cons, ih]
      by_cases hkey : entry.1 ∈ nonSemanticKeys
      · rw [if_pos hkey, kept, kept, List.filter_cons_of_neg (by simp [hkey])]
      · rw [if_neg hkey, kept, kept, List.filter_cons_of_pos (by simp [hkey]), List.map_cons]

theorem visibleEntries_eq (entries : List (Text × Value)) :
    visibleEntries entries =
      (kept entries).map fun entry => (entry.1, visibleField entry.1 entry.2) := by
  induction entries with
  | nil => rfl
  | cons entry entries ih =>
      rw [visibleEntries_cons, ih]
      by_cases hkey : entry.1 ∈ nonSemanticKeys
      · rw [if_pos hkey, kept, kept, List.filter_cons_of_neg (by simp [hkey])]
      · rw [if_neg hkey, kept, kept, List.filter_cons_of_pos (by simp [hkey]), List.map_cons]

theorem plainEntries_cons (value : Value) (entries : List (Text × Value)) :
    plainEntries ((key, value) :: entries) =
      (!nonSemanticKeys.contains key && plainField key value && plainEntries entries) := by
  cases value <;> rfl

theorem collisionlessEntries_cons (value : Value) (entries : List (Text × Value)) :
    collisionlessEntries ((key, value) :: entries) =
      ((nonSemanticKeys.contains key || collisionlessField key value) &&
        collisionlessEntries entries) := by
  cases value <;> simp only [collisionlessEntries, collisionlessField, Bool.or_assoc]

variable {entries : List (Text × Value)}

theorem plainEntries_iff :
    plainEntries entries = true ↔
      ∀ entry ∈ entries, entry.1 ∉ nonSemanticKeys ∧ plainField entry.1 entry.2 = true := by
  induction entries with
  | nil => exact iff_of_true rfl fun entry hentry => absurd hentry List.not_mem_nil
  | cons entry entries ih =>
      rw [plainEntries_cons, Bool.and_eq_true, ih, List.forall_mem_cons, Bool.and_eq_true,
        Bool.not_eq_true', Bool.eq_false_iff, Ne, List.contains_iff_mem]

variable {items : List Value}

theorem plainItems_iff :
    plainItems items = true ↔ ∀ item ∈ items, isEmptyDict item = false ∧ isPlain item = true := by
  induction items with
  | nil => exact iff_of_true rfl fun item hitem => absurd hitem List.not_mem_nil
  | cons item items ih =>
      rw [plainItems, Bool.and_eq_true, ih, List.forall_mem_cons, Bool.and_eq_true,
        Bool.not_eq_true']

theorem collisionlessEntries_iff :
    collisionlessEntries entries = true ↔
      ∀ entry ∈ kept entries, collisionlessField entry.1 entry.2 = true := by
  induction entries with
  | nil => exact iff_of_true rfl fun entry hentry => absurd hentry List.not_mem_nil
  | cons entry entries ih =>
      rw [collisionlessEntries_cons, Bool.and_eq_true, ih]
      by_cases hkey : entry.1 ∈ nonSemanticKeys
      · rw [kept, kept, List.filter_cons_of_neg (by simp [hkey]), List.contains_iff_mem.mpr hkey]
        exact and_iff_right rfl
      · rw [kept, kept, List.filter_cons_of_pos (by simp [hkey]), List.forall_mem_cons,
          Bool.eq_false_iff.mpr (mt List.contains_iff_mem.mp hkey), Bool.false_or]

theorem collisionlessItems_iff :
    collisionlessItems items = true ↔ ∀ item ∈ items, collisionless item = true := by
  induction items with
  | nil => exact iff_of_true rfl fun item hitem => absurd hitem List.not_mem_nil
  | cons item items ih => rw [collisionlessItems, Bool.and_eq_true, ih, List.forall_mem_cons]

/-! ## Blocks of no content -/

theorem isEmptyDict_dict_map (entries : List (Text × Value)) (field : Text → Value → Value) :
    isEmptyDict (.dict (entries.map fun entry => (entry.1, field entry.1 entry.2))) =
      entries.isEmpty := by
  cases entries <;> rfl

theorem isEmptyDict_canon (value : Value) :
    isEmptyDict (canonicalizeForPrefixCompare value) = isEmptyDict (visible value) := by
  cases value with
  | dict entries =>
      rw [canonicalizeForPrefixCompare, visible, canonicalizeEntries_eq, visibleEntries_eq,
        isEmptyDict_dict_map, isEmptyDict_dict_map]
  | _ => rfl

variable {value : Value}

theorem isEmptyDict_visible (hempty : isEmptyDict value = true) :
    isEmptyDict (visible value) = true := by
  cases value with
  | dict entries =>
      cases entries with
      | nil => rfl
      | cons entry entries => cases hempty
  | _ => cases hempty

/-- The blocks of which something is left. -/
def shown (items : List Value) : List Value := items.filter fun item => !isEmptyDict (visible item)

theorem canonicalizeItems_eq (items : List Value) :
    canonicalizeItems items = (shown items).map canonicalizeForPrefixCompare := by
  induction items with
  | nil => rfl
  | cons item items ih =>
      rw [canonicalizeItems, isEmptyDict_canon, ih, shown, shown]
      cases hempty : isEmptyDict (visible item) with
      | true => rw [if_pos rfl, List.filter_cons_of_neg (by simp [hempty])]
      | false =>
          rw [if_neg Bool.false_ne_true, List.filter_cons_of_pos (by simp [hempty]), List.map_cons]

theorem visibleItems_eq (items : List Value) : visibleItems items = (shown items).map visible := by
  induction items with
  | nil => rfl
  | cons item items ih =>
      rw [visibleItems, ih, shown, shown]
      cases hempty : isEmptyDict (visible item) with
      | true => rw [if_pos rfl, List.filter_cons_of_neg (by simp [hempty])]
      | false =>
          rw [if_neg Bool.false_ne_true, List.filter_cons_of_pos (by simp [hempty]), List.map_cons]

/-! ## Values without collisions -/

variable {key : Text}

theorem canonField_of_plain (hplain : plainField key value = true)
    (hvalue : isPlain value = true → canonicalizeForPrefixCompare value = value) :
    canonField key value = value := by
  unfold canonField
  by_cases hopaque : key ∈ opaquePayloadKeys
  · rw [if_pos hopaque]
  rw [if_neg hopaque]
  unfold plainField at hplain
  rw [Bool.eq_false_iff.mpr (mt List.contains_iff_mem.mp hopaque), Bool.false_or] at hplain
  cases value with
  | str content => exact if_neg (bne_iff_ne.mp hplain)
  | _ => exact hvalue hplain

/-- What is plain is compared as it is. -/
theorem canon_of_plain (hplain : isPlain value = true) :
    canonicalizeForPrefixCompare value = value := by
  induction value using Value.inductionOn with
  | none => rfl
  | number number => rfl
  | str content => rfl
  | list items ih =>
      have hitems := plainItems_iff.mp hplain
      have hshown : shown items = items := List.filter_eq_self.mpr fun item hitem => by
        rw [← isEmptyDict_canon, ih item hitem (hitems item hitem).2, (hitems item hitem).1]
        rfl
      rw [canonicalizeForPrefixCompare, canonicalizeItems_eq, hshown]
      exact congrArg Value.list ((List.map_congr_left fun item hitem =>
        ih item hitem (hitems item hitem).2).trans (List.map_id items))
  | dict entries ih =>
      have hentries := plainEntries_iff.mp hplain
      have hkept : kept entries = entries := List.filter_eq_self.mpr fun entry hentry =>
        decide_eq_true (hentries entry hentry).1
      rw [canonicalizeForPrefixCompare, canonicalizeEntries_eq, hkept]
      refine congrArg Value.dict ((List.map_congr_left fun entry hentry => ?_).trans
        (List.map_id entries))
      rw [canonField_of_plain (hentries entry hentry).2 (ih entry hentry), id]

theorem visibleField_of_collisionless (hfree : collisionlessField key value = true)
    (hvalue : collisionless value = true → visible value = canonicalizeForPrefixCompare value) :
    visibleField key value = canonField key value := by
  unfold visibleField canonField
  by_cases hopaque : key ∈ opaquePayloadKeys
  · rw [if_pos hopaque, if_pos hopaque]
  rw [if_neg hopaque, if_neg hopaque]
  unfold collisionlessField at hfree
  rw [Bool.eq_false_iff.mpr (mt List.contains_iff_mem.mp hopaque), Bool.false_or] at hfree
  cases value with
  | dict payload => exact (canon_of_plain hfree).symm
  | list items => exact hvalue hfree
  | _ => rfl

/-- Without collisions the projection erases nothing that is seen. -/
theorem visible_of_collisionless (hfree : collisionless value = true) :
    visible value = canonicalizeForPrefixCompare value := by
  induction value using Value.inductionOn with
  | none => rfl
  | number number => rfl
  | str content => rfl
  | list items ih =>
      have hitems := collisionlessItems_iff.mp hfree
      rw [visible, canonicalizeForPrefixCompare, visibleItems_eq, canonicalizeItems_eq]
      exact congrArg Value.list (List.map_congr_left fun item hitem =>
        ih item (List.mem_of_mem_filter hitem) (hitems item (List.mem_of_mem_filter hitem)))
  | dict entries ih =>
      have hentries := collisionlessEntries_iff.mp hfree
      rw [visible, canonicalizeForPrefixCompare, visibleEntries_eq, canonicalizeEntries_eq]
      refine congrArg Value.dict (List.map_congr_left fun entry hentry => ?_)
      rw [visibleField_of_collisionless (hentries entry hentry)
        (ih entry (List.mem_of_mem_filter hentry))]

theorem isPlain_textBlocks (content : Text) : isPlain (textBlocks content) = true := rfl

theorem plainField_canonField (hvalue : isPlain (canonicalizeForPrefixCompare value) = true) :
    plainField key (canonField key value) = true := by
  unfold plainField
  rw [Bool.or_eq_true, List.contains_iff_mem]
  by_cases hopaque : key ∈ opaquePayloadKeys
  · exact .inl hopaque
  right
  unfold canonField
  rw [if_neg hopaque]
  cases value with
  | str content =>
      change (match if key = text "content" then textBlocks content else .str content with
        | .str _ => key != text "content"
        | value => isPlain value) = true
      by_cases hkey : key = text "content"
      · rw [if_pos hkey]
        exact isPlain_textBlocks content
      · rw [if_neg hkey]
        exact bne_iff_ne.mpr hkey
  | _ => exact hvalue

theorem isPlain_canon (value : Value) : isPlain (canonicalizeForPrefixCompare value) = true := by
  induction value using Value.inductionOn with
  | none => rfl
  | number number => rfl
  | str content => rfl
  | list items ih =>
      rw [canonicalizeForPrefixCompare, canonicalizeItems_eq, isPlain, plainItems_iff]
      intro canon hcanon
      obtain ⟨item, hitem, rfl⟩ := List.mem_map.mp hcanon
      obtain ⟨hmem, hshown⟩ := List.mem_filter.mp hitem
      exact ⟨by rw [isEmptyDict_canon]; exact Bool.not_eq_true' _ ▸ hshown, ih item hmem⟩
  | dict entries ih =>
      rw [canonicalizeForPrefixCompare, canonicalizeEntries_eq, isPlain, plainEntries_iff]
      intro canon hcanon
      obtain ⟨entry, hentry, rfl⟩ := List.mem_map.mp hcanon
      obtain ⟨hmem, hkey⟩ := List.mem_filter.mp hentry
      exact ⟨of_decide_eq_true hkey, plainField_canonField (ih entry hmem)⟩

theorem collisionless_of_plain (hplain : isPlain value = true) : collisionless value = true := by
  induction value using Value.inductionOn with
  | none => rfl
  | number number => rfl
  | str content => rfl
  | list items ih =>
      have hitems := plainItems_iff.mp hplain
      exact collisionlessItems_iff.mpr fun item hitem => ih item hitem (hitems item hitem).2
  | dict entries ih =>
      have hentries := plainEntries_iff.mp hplain
      refine collisionlessEntries_iff.mpr fun entry hentry => ?_
      have hmem := List.mem_of_mem_filter hentry
      have hfield := (hentries entry hmem).2
      have hvalue := ih entry hmem
      obtain ⟨key, value⟩ := entry
      unfold plainField at hfield
      unfold collisionlessField
      rw [Bool.or_eq_true] at hfield ⊢
      refine hfield.imp_right fun hfield => ?_
      cases value with
      | dict payload => exact hfield
      | list items => exact hvalue hfield
      | _ => rfl

/-! ## Values with collisions -/

theorem wellKeyed_textBlocks (content : Text) : (textBlocks content).WellKeyed := by
  rw [textBlocks, Value.WellKeyed, wellKeyedItems_iff]
  intro item hitem
  obtain rfl := List.mem_singleton.mp hitem
  rw [Value.WellKeyed]
  have hnodup : [text "type", text "text"].Nodup := by decide
  refine ⟨hnodup, wellKeyedEntries_iff.mpr fun entry hentry => ?_⟩
  rcases List.mem_cons.mp hentry with rfl | hentry
  · exact Value.wellKeyed_str _
  · obtain rfl := List.mem_singleton.mp hentry
    exact Value.wellKeyed_str _

theorem wellKeyed_canonField (hkeyed : value.WellKeyed)
    (hcanon : (canonicalizeForPrefixCompare value).WellKeyed) :
    (canonField key value).WellKeyed := by
  unfold canonField
  by_cases hopaque : key ∈ opaquePayloadKeys
  · rw [if_pos hopaque]
    exact hkeyed
  rw [if_neg hopaque]
  cases value with
  | str content =>
      change (if key = text "content" then textBlocks content else .str content).WellKeyed
      split_ifs
      · exact wellKeyed_textBlocks content
      · exact hkeyed
  | _ => exact hcanon

theorem map_fst_map (entries : List (Text × Value)) (field : Text → Value → Value) :
    (entries.map fun entry => (entry.1, field entry.1 entry.2)).map Prod.fst =
      entries.map Prod.fst := by
  rw [List.map_map]
  rfl

theorem nodup_kept (hnodup : (entries.map Prod.fst).Nodup) : ((kept entries).map Prod.fst).Nodup :=
  hnodup.sublist (List.filter_sublist.map Prod.fst)

theorem wellKeyed_canon (hkeyed : value.WellKeyed) :
    (canonicalizeForPrefixCompare value).WellKeyed := by
  induction value using Value.inductionOn with
  | none => exact hkeyed
  | number number => exact hkeyed
  | str content => exact hkeyed
  | list items ih =>
      rw [canonicalizeForPrefixCompare, canonicalizeItems_eq, Value.WellKeyed, wellKeyedItems_iff]
      intro canon hcanon
      obtain ⟨item, hitem, rfl⟩ := List.mem_map.mp hcanon
      have hmem := List.mem_of_mem_filter hitem
      exact ih item hmem (hkeyed.of_mem hmem)
  | dict entries ih =>
      rw [Value.WellKeyed] at hkeyed
      rw [canonicalizeForPrefixCompare, canonicalizeEntries_eq, Value.WellKeyed, map_fst_map]
      refine ⟨nodup_kept hkeyed.1, wellKeyedEntries_iff.mpr fun canon hcanon => ?_⟩
      obtain ⟨entry, hentry, rfl⟩ := List.mem_map.mp hcanon
      have hmem := List.mem_of_mem_filter hentry
      have hvalue := wellKeyedEntries_iff.mp hkeyed.2 entry hmem
      exact wellKeyed_canonField hvalue (ih entry hmem hvalue)

/-- Dictionaries of the same keys are compared key by key. -/
theorem same_of_same_map {entries : List (Text × Value)} {left right : Text → Value → Value}
    (hnodup : (entries.map Prod.fst).Nodup)
    (hsame : (Value.dict (entries.map fun entry => (entry.1, left entry.1 entry.2))).same
      (.dict (entries.map fun entry => (entry.1, right entry.1 entry.2))) = true) :
    ∀ entry ∈ entries, (left entry.1 entry.2).same (right entry.1 entry.2) = true := by
  intro entry hentry
  have hleft := (map_fst_map entries left).symm ▸ hnodup
  have hright := (map_fst_map entries right).symm ▸ hnodup
  obtain ⟨-, hvalues⟩ := (same_dict_iff hleft).mp hsame
  obtain ⟨other, hother, hsame⟩ := hvalues entry.1 (left entry.1 entry.2)
    ((Dict.lookup_eq_some_iff_mem hleft).mpr (List.mem_map.mpr ⟨entry, hentry, rfl⟩))
  have hfound : (entries.map fun entry => (entry.1, right entry.1 entry.2)).lookup entry.1 =
      some (right entry.1 entry.2) :=
    (Dict.lookup_eq_some_iff_mem hright).mpr (List.mem_map.mpr ⟨entry, hentry, rfl⟩)
  rw [hfound, Option.some_inj] at hother
  exact hother ▸ hsame

theorem same_of_sameItems_map {left right : Value → Value}
    (hsame : sameItems (items.map left) (items.map right) = true) :
    ∀ item ∈ items, (left item).same (right item) = true := by
  rw [same_list_iff, List.forall₂_map_left_iff, List.forall₂_map_right_iff,
    List.forall₂_same] at hsame
  exact hsame

theorem plainField_of_same (hsame : value.same (canonField key value) = true)
    (hvalue : value.same (canonicalizeForPrefixCompare value) = true → isPlain value = true) :
    plainField key value = true := by
  unfold plainField
  rw [Bool.or_eq_true, List.contains_iff_mem]
  by_cases hopaque : key ∈ opaquePayloadKeys
  · exact .inl hopaque
  right
  unfold canonField at hsame
  rw [if_neg hopaque] at hsame
  cases value with
  | str content =>
      refine bne_iff_ne.mpr fun hkey => ?_
      change (Value.str content).same
        (if key = text "content" then textBlocks content else .str content) = true at hsame
      rw [if_pos hkey] at hsame
      cases hsame
  | _ => exact hvalue hsame

/-- What is compared as it is, is plain. -/
theorem plain_of_same (hkeyed : value.WellKeyed)
    (hsame : value.same (canonicalizeForPrefixCompare value) = true) : isPlain value = true := by
  induction value using Value.inductionOn with
  | none => rfl
  | number number => rfl
  | str content => rfl
  | list items ih =>
      rw [canonicalizeForPrefixCompare, canonicalizeItems_eq, Value.same] at hsame
      have hlength := (same_list_iff.mp hsame).length_eq
      rw [List.length_map] at hlength
      have hshown : shown items = items := List.filter_sublist.eq_of_length hlength.symm
      have hitems : ∀ item ∈ items, (id item).same (canonicalizeForPrefixCompare item) = true :=
        same_of_sameItems_map (by rw [List.map_id]; rw [hshown] at hsame; exact hsame)
      refine plainItems_iff.mpr fun item hitem => ⟨?_, ?_⟩
      · rw [← hshown] at hitem
        obtain ⟨-, hnonempty⟩ := List.mem_filter.mp hitem
        rw [Bool.not_eq_true'] at hnonempty
        exact Bool.eq_false_iff.mpr (mt isEmptyDict_visible (Bool.eq_false_iff.mp hnonempty))
      · exact ih item hitem (hkeyed.of_mem hitem) (hitems item hitem)
  | dict entries ih =>
      rw [Value.WellKeyed] at hkeyed
      rw [canonicalizeForPrefixCompare, canonicalizeEntries_eq] at hsame
      have hlength := ((same_dict_iff hkeyed.1).mp hsame).1
      rw [List.length_map] at hlength
      have hkept : kept entries = entries := List.filter_sublist.eq_of_length hlength.symm
      rw [hkept] at hsame
      have hentries := @same_of_same_map entries (fun _ value => value) canonField hkeyed.1
        (by rw [List.map_id']; exact hsame)
      refine plainEntries_iff.mpr fun entry hentry => ⟨?_, ?_⟩
      · rw [← hkept] at hentry
        exact of_decide_eq_true (List.mem_filter.mp hentry).2
      · exact plainField_of_same (hentries entry hentry)
          (ih entry hentry (wellKeyedEntries_iff.mp hkeyed.2 entry hentry))

theorem collisionless_of_isEmptyDict (hempty : isEmptyDict (visible value) = true) :
    collisionless value = true := by
  cases value with
  | dict entries =>
      rw [visible, visibleEntries_eq, isEmptyDict_dict_map, List.isEmpty_iff] at hempty
      refine collisionlessEntries_iff.mpr fun entry hentry => ?_
      exact absurd (hempty ▸ hentry) List.not_mem_nil
  | list items => cases hempty
  | _ => rfl

theorem collisionlessField_of_same (hkeyed : value.WellKeyed)
    (hsame : (visibleField key value).same (canonField key value) = true)
    (hvalue : (visible value).same (canonicalizeForPrefixCompare value) = true →
      collisionless value = true) :
    collisionlessField key value = true := by
  unfold collisionlessField
  rw [Bool.or_eq_true, List.contains_iff_mem]
  by_cases hopaque : key ∈ opaquePayloadKeys
  · exact .inl hopaque
  right
  unfold visibleField canonField at hsame
  rw [if_neg hopaque, if_neg hopaque] at hsame
  cases value with
  | dict payload => exact plain_of_same hkeyed hsame
  | list items => exact hvalue hsame
  | _ => rfl

/-- Where the projection erases nothing that is seen, there are no collisions. -/
theorem collisionless_of_same (hkeyed : value.WellKeyed)
    (hsame : (visible value).same (canonicalizeForPrefixCompare value) = true) :
    collisionless value = true := by
  induction value using Value.inductionOn with
  | none => rfl
  | number number => rfl
  | str content => rfl
  | list items ih =>
      rw [visible, canonicalizeForPrefixCompare, visibleItems_eq, canonicalizeItems_eq,
        Value.same] at hsame
      have hitems := same_of_sameItems_map hsame
      refine collisionlessItems_iff.mpr fun item hitem => ?_
      cases hempty : isEmptyDict (visible item) with
      | true => exact collisionless_of_isEmptyDict hempty
      | false =>
          exact ih item hitem (hkeyed.of_mem hitem)
            (hitems item (List.mem_filter.mpr ⟨hitem, by rw [hempty]; rfl⟩))
  | dict entries ih =>
      rw [Value.WellKeyed] at hkeyed
      rw [visible, canonicalizeForPrefixCompare, visibleEntries_eq, canonicalizeEntries_eq] at hsame
      have hentries := same_of_same_map (nodup_kept hkeyed.1) hsame
      refine collisionlessEntries_iff.mpr fun entry hentry => ?_
      have hmem := List.mem_of_mem_filter hentry
      have hvalue := wellKeyedEntries_iff.mp hkeyed.2 entry hmem
      exact collisionlessField_of_same hvalue (hentries entry hentry) (ih entry hmem hvalue)

/-! ## Lists of messages -/

/-- Equal keys mean that the lists agree, if and only if nothing in a payload collides. -/
theorem visiblySame_iff_collisionless {messages : List Value}
    (hkeyed : (Value.list messages).WellKeyed) :
    (∀ others, collisionlessItems others = true →
      canonicallySame (.list messages) (.list others) = true →
        visiblySame messages others = true) ↔
      collisionlessItems messages = true := by
  constructor
  · intro hfaithful
    -- The key is itself a list without collisions, and is its own key.
    have hplain := isPlain_canon (.list messages)
    have hkey := canon_of_plain hplain
    have hfree := collisionless_of_plain hplain
    have hwell := wellKeyed_canon hkeyed
    have hseen := visible_of_collisionless hfree
    rw [hkey] at hseen
    have hsame := hfaithful (canonicalizeItems messages) hfree (by
      rw [canonicallySame]
      exact hkey.symm ▸ Value.same_self hwell)
    rw [visiblySame] at hsame
    exact collisionless_of_same hkeyed (hseen ▸ hsame)
  · intro hfree others hothers hsame
    have hleft : visible (.list messages) = _ := visible_of_collisionless hfree
    have hright : visible (.list others) = _ := visible_of_collisionless hothers
    rw [visiblySame, hleft, hright]
    exact hsame

/-- A call with one argument. -/
def callWith (argument value : String) : List Value :=
  [.dict [(text "role", .str (text "model")), (text "parts", .list [.dict [
    (text "functionCall", .dict [(text "name", .str (text "f")),
      (text "args", .dict [(text argument, .str (text value))])])]])]]

/-- An annotation of a message is erased, and the call stays. -/
theorem index_erased :
    visiblySame (callWith "city" "Albany")
      ((callWith "city" "Albany").map (·.put (text "index") (.number (.int 0)))) = true :=
  (visiblySame_iff_collisionless (by
    simp only [callWith, Value.WellKeyed, WellKeyedItems, WellKeyedEntries]
    decide +kernel)).mpr (by decide +kernel) _ (by decide +kernel) (by decide +kernel)

/-- The argument `state` of a call is taken for an annotation. -/
theorem state_erased :
    canonicallySame (.list (callWith "state" "NY")) (.list (callWith "state" "CA")) = true ∧
      visiblySame (callWith "state" "NY") (callWith "state" "CA") = false := by
  decide +kernel

end Legroom.Cache.PrefixKey
