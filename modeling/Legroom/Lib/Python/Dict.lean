import Mathlib.Algebra.BigOperators.Group.List.Basic
import Mathlib.Data.List.Nodup

/-!
# Python dictionaries

A dictionary keeps its keys in the order in which they came.  A new value for an old
key stays at the place of the key.
-/

namespace Legroom.Python

@[ext]
structure Dict (Key Entry : Type*) where
  entries : List (Key × Entry)
  nodup : (entries.map Prod.fst).Nodup

namespace Dict

variable {Key Entry Other : Type*}

def empty : Dict Key Entry := ⟨[], List.nodup_nil⟩

def keys (dict : Dict Key Entry) : List Key := dict.entries.map Prod.fst

def size (dict : Dict Key Entry) : ℕ := dict.entries.length

/-- A comprehension that keeps some keys. -/
def filter (kept : Key → Entry → Bool) (dict : Dict Key Entry) : Dict Key Entry where
  entries := dict.entries.filter fun entry => kept entry.1 entry.2
  nodup := dict.nodup.sublist (List.filter_sublist.map _)

/-- A comprehension over the values. -/
def mapValues (value : Entry → Other) (dict : Dict Key Entry) : Dict Key Other where
  entries := dict.entries.map fun entry => (entry.1, value entry.2)
  nodup := by
    rw [List.map_map]
    exact dict.nodup

variable {key : Key} {value : Entry}

theorem lookup_eq_some_iff_mem [BEq Key] [LawfulBEq Key] {entries : List (Key × Entry)}
    (hnodup : (entries.map Prod.fst).Nodup) :
    entries.lookup key = some value ↔ (key, value) ∈ entries := by
  induction entries with
  | nil => simp
  | cons entry entries ih =>
      rw [List.map_cons, List.nodup_cons] at hnodup
      rw [List.lookup_cons, List.mem_cons]
      by_cases hkey : key = entry.1
      · have hnot : (key, value) ∉ entries := fun hmem =>
          hnodup.1 (hkey ▸ List.mem_map_of_mem (f := Prod.fst) hmem)
        rw [beq_iff_eq.mpr hkey, Option.some.injEq, or_iff_left hnot]
        constructor
        · rintro rfl
          exact Prod.ext hkey rfl
        · exact fun heq => (congrArg Prod.snd heq).symm
      · have hne : (key, value) ≠ entry := fun heq => hkey (congrArg Prod.fst heq)
        rw [beq_eq_false_iff_ne.mpr hkey, or_iff_right hne]
        exact ih hnodup.2

variable [DecidableEq Key]

def get? (dict : Dict Key Entry) (key : Key) : Option Entry := dict.entries.lookup key

def replaced (key : Key) (value : Entry) (entry : Key × Entry) : Key × Entry :=
  if entry.1 = key then (key, value) else entry

theorem map_fst_replaced (key : Key) (value : Entry) (entries : List (Key × Entry)) :
    (entries.map (replaced key value)).map Prod.fst = entries.map Prod.fst := by
  rw [List.map_map]
  refine List.map_congr_left fun entry _ => ?_
  rw [Function.comp_apply, replaced]
  split_ifs with hkey
  · exact hkey.symm
  · rfl

/-- `dict[key] = value` -/
def set (dict : Dict Key Entry) (key : Key) (value : Entry) : Dict Key Entry :=
  if hkey : key ∈ dict.keys then
    ⟨dict.entries.map (replaced key value), by
      rw [map_fst_replaced]
      exact dict.nodup⟩
  else
    ⟨dict.entries ++ [(key, value)], by
      rw [List.map_append]
      exact dict.nodup.append (List.nodup_singleton key)
        (List.disjoint_singleton.mpr hkey)⟩

theorem entries_set (dict : Dict Key Entry) (key : Key) (value : Entry) :
    (dict.set key value).entries =
      if key ∈ dict.keys then dict.entries.map (replaced key value)
      else dict.entries ++ [(key, value)] := by
  rw [set]
  split_ifs
  · rfl
  · rfl

/-- `dict.pop` without the value. -/
def erase (dict : Dict Key Entry) (key : Key) : Dict Key Entry :=
  dict.filter fun other _ => other ≠ key

/-- `dict.setdefault` -/
def setDefault (dict : Dict Key Entry) (key : Key) (value : Entry) : Dict Key Entry :=
  if (dict.get? key).isSome then dict else dict.set key value

/-! ## Lookup -/

variable {dict : Dict Key Entry}

theorem get?_eq_some_iff : dict.get? key = some value ↔ (key, value) ∈ dict.entries :=
  lookup_eq_some_iff_mem dict.nodup

theorem mem_keys_iff : key ∈ dict.keys ↔ ∃ value, dict.get? key = some value := by
  rw [keys, List.mem_map]
  constructor
  · rintro ⟨entry, hentry, rfl⟩
    exact ⟨entry.2, get?_eq_some_iff.mpr hentry⟩
  · rintro ⟨value, hvalue⟩
    exact ⟨(key, value), get?_eq_some_iff.mp hvalue, rfl⟩

theorem get?_eq_none_iff : dict.get? key = none ↔ key ∉ dict.keys := by
  rw [mem_keys_iff, ← Option.isSome_iff_exists, Option.not_isSome_iff_eq_none]

theorem size_ne_zero_iff : dict.size ≠ 0 ↔ ∃ key value, dict.get? key = some value := by
  rw [size, ← Nat.pos_iff_ne_zero, List.length_pos_iff_exists_mem]
  constructor
  · rintro ⟨entry, hentry⟩
    exact ⟨entry.1, entry.2, get?_eq_some_iff.mpr hentry⟩
  · rintro ⟨key, value, hvalue⟩
    exact ⟨(key, value), get?_eq_some_iff.mp hvalue⟩

variable {other : Key}

theorem mem_set_iff {found : Entry} :
    (other, found) ∈ (dict.set key value).entries ↔
      if other = key then found = value else (other, found) ∈ dict.entries := by
  rw [entries_set]
  split_ifs with hmem hkey hkey
  · subst hkey
    obtain ⟨old, hold⟩ := mem_keys_iff.mp hmem
    constructor
    · intro hentry
      obtain ⟨entry, -, heq⟩ := List.mem_map.mp hentry
      rw [replaced] at heq
      split_ifs at heq with hfirst
      · exact (congrArg Prod.snd heq).symm
      · exact absurd (congrArg Prod.fst heq) hfirst
    · rintro rfl
      exact List.mem_map.mpr ⟨(other, old), get?_eq_some_iff.mp hold, if_pos rfl⟩
  · constructor
    · intro hentry
      obtain ⟨entry, hentry, heq⟩ := List.mem_map.mp hentry
      rw [replaced] at heq
      split_ifs at heq with hfirst
      · exact absurd (congrArg Prod.fst heq).symm hkey
      · exact heq ▸ hentry
    · exact fun hentry => List.mem_map.mpr ⟨(other, found), hentry, if_neg hkey⟩
  · subst hkey
    have hnot : (other, found) ∉ dict.entries := fun hentry =>
      hmem (List.mem_map_of_mem (f := Prod.fst) hentry)
    rw [List.mem_append, or_iff_right hnot, List.mem_singleton, Prod.mk.injEq]
    exact and_iff_right rfl
  · have hne : (other, found) ≠ (key, value) := fun heq => hkey (congrArg Prod.fst heq)
    rw [List.mem_append, List.mem_singleton, or_iff_left hne]

theorem get?_set (dict : Dict Key Entry) (key other : Key) (value : Entry) :
    (dict.set key value).get? other = if other = key then some value else dict.get? other := by
  refine Option.ext fun found => ?_
  rw [get?_eq_some_iff, mem_set_iff]
  split_ifs
  · rw [Option.some.injEq]
    exact eq_comm
  · exact get?_eq_some_iff.symm

theorem get?_filter (dict : Dict Key Entry) (kept : Key → Entry → Bool) (key : Key) :
    (dict.filter kept).get? key = (dict.get? key).filter (kept key) := by
  refine Option.ext fun found => ?_
  rw [get?_eq_some_iff, Option.filter_eq_some_iff, get?_eq_some_iff]
  exact List.mem_filter

theorem get?_mapValues (dict : Dict Key Entry) (value : Entry → Other) (key : Key) :
    (dict.mapValues value).get? key = (dict.get? key).map value := by
  refine Option.ext fun found => ?_
  rw [get?_eq_some_iff, Option.map_eq_some_iff, mapValues, List.mem_map]
  constructor
  · rintro ⟨entry, hentry, heq⟩
    cases heq
    exact ⟨entry.2, get?_eq_some_iff.mpr hentry, rfl⟩
  · rintro ⟨old, hold, rfl⟩
    exact ⟨(key, old), get?_eq_some_iff.mp hold, rfl⟩

theorem get?_setDefault (dict : Dict Key Entry) (key other : Key) (value : Entry) :
    (dict.setDefault key value).get? other =
      if other = key then some ((dict.get? key).getD value) else dict.get? other := by
  rw [setDefault]
  split_ifs with hsome hkey hkey
  · subst hkey
    obtain ⟨old, hold⟩ := Option.isSome_iff_exists.mp hsome
    rw [hold]
    rfl
  · rfl
  · rw [Option.not_isSome_iff_eq_none.mp hsome, get?_set, if_pos hkey]
    rfl
  · rw [get?_set, if_neg hkey]

theorem get?_erase (dict : Dict Key Entry) (key other : Key) :
    (dict.erase key).get? other = if other = key then none else dict.get? other := by
  rw [erase, get?_filter]
  split_ifs with hother
  · cases dict.get? other with
    | none => rfl
    | some value => exact Option.filter_some_neg (by simpa using hother)
  · cases dict.get? other with
    | none => rfl
    | some value => exact Option.filter_some_pos (by simpa using hother)

theorem mem_keys_set : other ∈ (dict.set key value).keys ↔ other = key ∨ other ∈ dict.keys := by
  rw [mem_keys_iff, get?_set, mem_keys_iff]
  split_ifs with hother
  · exact iff_of_true ⟨value, rfl⟩ (.inl hother)
  · rw [or_iff_right hother]

theorem mem_keys_erase : other ∈ (dict.erase key).keys ↔ other ≠ key ∧ other ∈ dict.keys := by
  rw [mem_keys_iff, get?_erase, mem_keys_iff]
  split_ifs with hother
  · exact iff_of_false (fun hnone => by simp at hnone) fun hboth => hboth.1 hother
  · rw [and_iff_right hother]

/-- A value is set in a selection if it belongs there, provided the value in its place does
exactly then. -/
theorem filter_set {kept : Key → Entry → Bool}
    (hplace : ∀ found, dict.get? key = some found → kept key found = kept key value) :
    (dict.set key value).filter kept =
      if kept key value then (dict.filter kept).set key value else dict.filter kept := by
  have hkept : ∀ entry ∈ dict.entries,
      kept (replaced key value entry).1 (replaced key value entry).2 = kept entry.1 entry.2 := by
    intro entry hentry
    rw [replaced]
    split_ifs with hkey
    · subst hkey
      exact (hplace entry.2 (get?_eq_some_iff.mpr hentry)).symm
    · rfl
  refine Dict.ext ?_
  show (dict.set key value).entries.filter (fun entry => kept entry.1 entry.2) = _
  rw [entries_set]
  by_cases hmem : key ∈ dict.keys
  · obtain ⟨found, hfound⟩ := mem_keys_iff.mp hmem
    rw [if_pos hmem, List.filter_map, Function.comp_def, List.filter_congr hkept]
    by_cases hvalue : kept key value = true
    · have hselected : key ∈ (dict.filter kept).keys := by
        rw [mem_keys_iff, get?_filter, hfound]
        exact ⟨found, Option.filter_some_pos ((hplace found hfound).trans hvalue)⟩
      rw [if_pos hvalue, entries_set, if_pos hselected]
      rfl
    · rw [if_neg hvalue]
      refine (List.map_congr_left fun entry hentry => if_neg ?_).trans (List.map_id _)
      rintro rfl
      obtain ⟨hentry, hselected⟩ := List.mem_filter.mp hentry
      exact hvalue (hplace entry.2 (get?_eq_some_iff.mpr hentry) ▸ hselected)
  · rw [if_neg hmem, List.filter_append, List.filter_singleton, cond_eq_ite]
    by_cases hvalue : kept key value = true
    · have hselected : key ∉ (dict.filter kept).keys := by
        rw [← get?_eq_none_iff, get?_filter, get?_eq_none_iff.mpr hmem]
        rfl
      rw [if_pos hvalue, if_pos hvalue, entries_set, if_neg hselected]
      rfl
    · rw [if_neg hvalue, if_neg hvalue, List.append_nil]
      rfl

/-- What comes into a dictionary entry by entry. -/
theorem mem_foldl_set {Item : Type*} (keyOf : Item → Key) (valueOf : Item → Entry)
    {items : List Item} {entry : Key × Entry}
    (hentry : entry ∈
      (items.foldl (fun dict item => dict.set (keyOf item) (valueOf item)) dict).entries) :
    (∃ item ∈ items, entry = (keyOf item, valueOf item)) ∨ entry ∈ dict.entries := by
  induction items generalizing dict with
  | nil => exact .inr hentry
  | cons first items ih =>
      rcases ih hentry with ⟨item, hitem, heq⟩ | hmem
      · exact .inl ⟨item, List.mem_cons_of_mem first hitem, heq⟩
      · obtain ⟨key, value⟩ := entry
        rw [mem_set_iff] at hmem
        split_ifs at hmem with hkey
        · exact .inl ⟨first, List.mem_cons_self, Prod.ext hkey hmem⟩
        · exact .inr hmem

/-! ## Rebuilding -/

theorem entries_set_of_not_mem (hkey : key ∉ dict.keys) (value : Entry) :
    (dict.set key value).entries = dict.entries ++ [(key, value)] := by
  rw [entries_set, if_neg hkey]

/-- A dictionary to which the entries of another are added one by one. -/
theorem foldl_set_eq_self {dict : Dict Key Entry}
    {step : Dict Key Entry → Key × Entry → Dict Key Entry}
    (hstep : ∀ before, ∀ entry ∈ dict.entries, entry.1 ∉ before.keys →
      step before entry = before.set entry.1 entry.2) :
    dict.entries.foldl step empty = dict := by
  have hrun : ∀ (rest : List (Key × Entry)) (before : Dict Key Entry),
      dict.entries = before.entries ++ rest →
        (rest.foldl step before).entries = dict.entries := by
    intro rest
    induction rest with
    | nil =>
        intro before hsplit
        rw [List.foldl_nil, hsplit, List.append_nil]
    | cons entry rest ih =>
        intro before hsplit
        have hnodup := dict.nodup
        rw [hsplit, List.map_append, List.map_cons] at hnodup
        have hfresh : entry.1 ∉ before.keys := fun hmem =>
          List.disjoint_of_nodup_append hnodup hmem List.mem_cons_self
        rw [List.foldl_cons]
        refine ih _ ?_
        rw [hstep before entry (by rw [hsplit]; exact List.mem_append_right _ List.mem_cons_self)
          hfresh, entries_set_of_not_mem hfresh, List.append_assoc, hsplit]
        rfl
  exact Dict.ext (hrun dict.entries empty rfl)

/-! ## Sums -/

section

variable {Amount : Type*} [AddCommMonoid Amount]

def sumBy (amount : Entry → Amount) (dict : Dict Key Entry) : Amount :=
  (dict.entries.map fun entry => amount entry.2).sum

/-- What is in the dictionary for a key. -/
def amountAt (amount : Entry → Amount) (dict : Dict Key Entry) (key : Key) : Amount :=
  ((dict.get? key).map amount).getD 0
variable (amount : Entry → Amount)

/-- A key is taken out with its amount. -/
theorem sumBy_erase (dict : Dict Key Entry) (key : Key) :
    (dict.erase key).sumBy amount + dict.amountAt amount key = dict.sumBy amount := by
  have hrun : ∀ entries : List (Key × Entry), (entries.map Prod.fst).Nodup →
      ((entries.filter fun entry => decide (entry.1 ≠ key)).map fun entry => amount entry.2).sum +
        ((entries.lookup key).map amount).getD 0 =
          (entries.map fun entry => amount entry.2).sum := by
    intro entries hnodup
    induction entries with
    | nil => exact add_zero _
    | cons entry entries ih =>
        rw [List.map_cons, List.nodup_cons] at hnodup
        rw [List.lookup_cons, List.map_cons, List.sum_cons]
        by_cases hkey : entry.1 = key
        · have hothers : entries.filter (fun entry => decide (entry.1 ≠ key)) = entries :=
            List.filter_eq_self.mpr fun other hother => decide_eq_true fun hsame =>
              hnodup.1 (hkey.trans hsame.symm ▸ List.mem_map_of_mem hother)
          rw [List.filter_cons_of_neg (by simpa using hkey), hothers, beq_iff_eq.mpr hkey.symm]
          exact add_comm _ _
        · rw [List.filter_cons_of_pos (by simpa using hkey), beq_eq_false_iff_ne.mpr (Ne.symm hkey),
            List.map_cons, List.sum_cons, add_assoc]
          exact congrArg (amount entry.2 + ·) (ih hnodup.2)
  exact hrun dict.entries dict.nodup

theorem erase_set (dict : Dict Key Entry) (key : Key) (value : Entry) :
    (dict.set key value).erase key = dict.erase key := by
  rw [erase, filter_set fun _ _ => rfl, if_neg (by simp)]
  rfl

/-- A new value for a key takes the place of the old one. -/
theorem sumBy_set (dict : Dict Key Entry) (key : Key) (value : Entry) :
    (dict.set key value).sumBy amount = (dict.erase key).sumBy amount + amount value := by
  have hsplit := sumBy_erase amount (dict.set key value) key
  rw [erase_set, amountAt, get?_set, if_pos rfl] at hsplit
  exact hsplit.symm

theorem amountAt_set (dict : Dict Key Entry) (key other : Key) (value : Entry) :
    (dict.set key value).amountAt amount other =
      if other = key then amount value else dict.amountAt amount other := by
  rw [amountAt, get?_set]
  split_ifs
  · rfl
  · rfl

/-- A key that is not there has the amount of a fresh entry. -/
theorem amountAt_eq (fresh : Entry) (hfresh : amount fresh = 0) (dict : Dict Key Entry)
    (key : Key) : dict.amountAt amount key = amount ((dict.get? key).getD fresh) := by
  rw [amountAt]
  cases dict.get? key with
  | none => exact hfresh.symm
  | some value => rfl

/-- What a new value has more than the old one is added to the sum. -/
theorem sumBy_set_add (fresh : Entry) {value : Entry} {more : Amount} (hfresh : amount fresh = 0)
    (dict : Dict Key Entry) (key : Key)
    (hvalue : amount value = amount ((dict.get? key).getD fresh) + more) :
    (dict.set key value).sumBy amount = dict.sumBy amount + more := by
  rw [sumBy_set, hvalue, ← amountAt_eq amount fresh hfresh, ← add_assoc, sumBy_erase]

end

theorem size_eq_sumBy (dict : Dict Key Entry) : dict.size = dict.sumBy fun _ => 1 := by
  rw [sumBy, List.map_const', List.sum_replicate_nat, mul_one]
  rfl

theorem size_erase (dict : Dict Key Entry) (key : Key) :
    (dict.erase key).size + (if key ∈ dict.keys then 1 else 0) = dict.size := by
  have hsplit := sumBy_erase (fun _ => 1) dict key
  rw [← size_eq_sumBy, ← size_eq_sumBy, amountAt] at hsplit
  rw [← hsplit]
  cases hfound : dict.get? key with
  | none => rw [if_neg (get?_eq_none_iff.mp hfound)]; rfl
  | some value => rw [if_pos (mem_keys_iff.mpr ⟨value, hfound⟩)]; rfl

theorem size_set_le (dict : Dict Key Entry) (key : Key) (value : Entry) :
    (dict.set key value).size ≤ dict.size + 1 := by
  have hset : (dict.set key value).size = (dict.erase key).size + 1 := by
    rw [size_eq_sumBy, sumBy_set, size_eq_sumBy]
  rw [hset, ← size_erase dict key]
  exact Nat.add_le_add_right (Nat.le_add_right _ _) 1

end Dict

end Legroom.Python
