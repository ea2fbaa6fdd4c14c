import Legroom.Lib.Python.Value

/-!
# Accesses to Python values

Operators and methods on values whose type is not known.  What raises has no value.
-/

namespace Legroom.Python.Value

def truthy : Value → Bool
  | .none => false
  | .number (.bool value) => value
  | .number (.int value) => value != 0
  | .number (.finite value) => value != 0
  | .number _ => true
  | .str text => !text.isEmpty
  | .list items => !items.isEmpty
  | .dict entries => !entries.isEmpty

/-- `left or right` -/
def orElse (left right : Value) : Value := if left.truthy then left else right

def isText (value : Value) (constant : Text) : Bool :=
  match value with
  | .str text => text == constant
  | _ => false

def asText : Value → Option Text
  | .str text => some text
  | _ => Option.none

def asList : Value → Option (List Value)
  | .list items => some items
  | _ => Option.none

def isDict : Value → Bool
  | .dict _ => true
  | _ => false

/-- `value.get(key, default)`; only dictionaries have the method. -/
def getOr (value : Value) (key : Text) (default : Value) : Option Value :=
  match value with
  | .dict entries => some ((entries.lookup key).getD default)
  | _ => Option.none

/-- What a loop over a value runs through. -/
def iterate : Value → Option (List Value)
  | .list items => some items
  | .str text => some (text.map fun char => .str [char])
  | .dict entries => some (entries.map fun entry => .str entry.1)
  | _ => Option.none

/-- `{**value, key: new}` -/
def put (value : Value) (key : Text) (new : Value) : Value :=
  match value with
  | .dict entries => .dict (setEntry key new entries)
  | value => value

/-- `value in keys` for a container of texts; lists and dictionaries are not hashable. -/
def isIn (value : Value) (isKey : Text → Bool) : Option Bool :=
  match value with
  | .str text => some (isKey text)
  | .list _ => Option.none
  | .dict _ => Option.none
  | _ => some false

theorem lookup_setEntry (key other : Text) (value : Value) (entries : List (Text × Value)) :
    (setEntry key value entries).lookup other =
      if other = key then some value else entries.lookup other := by
  induction entries with
  | nil =>
      rw [setEntry, List.lookup_cons, List.lookup_nil]
      split_ifs with hother
      · rw [beq_iff_eq.mpr hother]
      · rw [beq_eq_false_iff_ne.mpr hother]
  | cons entry entries ih =>
      rw [setEntry]
      split_ifs with hentry hother hother
      · rw [List.lookup_cons, beq_iff_eq.mpr hother]
      · rw [List.lookup_cons, List.lookup_cons, hentry, beq_eq_false_iff_ne.mpr hother]
      · rw [List.lookup_cons, ih, if_pos hother, hother,
          beq_eq_false_iff_ne.mpr fun heq => hentry heq.symm]
      · rw [List.lookup_cons, ih, if_neg hother, List.lookup_cons]

theorem setEntry_setEntry (key : Text) (first second : Value) (entries : List (Text × Value)) :
    setEntry key second (setEntry key first entries) = setEntry key second entries := by
  induction entries with
  | nil => rw [setEntry, setEntry, setEntry, if_pos rfl]
  | cons entry entries ih =>
      by_cases hentry : entry.1 = key
      · rw [setEntry, setEntry, if_pos hentry, if_pos hentry, setEntry, if_pos rfl]
      · rw [setEntry, setEntry, if_neg hentry, if_neg hentry, setEntry, if_neg hentry, ih]

variable {key : Text} {found : Value}
variable {entries : List (Text × Value)}

/-- An entry whose key is there takes the place of the old one. -/
theorem length_setEntry (hfound : entries.lookup key = some found) (value : Value) :
    (setEntry key value entries).length = entries.length := by
  induction entries with
  | nil => cases hfound
  | cons entry entries ih =>
      rw [setEntry]
      rw [List.lookup_cons] at hfound
      split_ifs with hentry
      · rfl
      · rw [beq_eq_false_iff_ne.mpr (Ne.symm hentry)] at hfound
        rw [List.length_cons, List.length_cons, ih hfound]

/-- An entry that gets the value it has. -/
theorem setEntry_self (hfound : entries.lookup key = some found) :
    setEntry key found entries = entries := by
  induction entries with
  | nil => cases hfound
  | cons entry entries ih =>
      rw [setEntry]
      rw [List.lookup_cons] at hfound
      split_ifs with hentry
      · rw [beq_iff_eq.mpr hentry.symm] at hfound
        obtain rfl := Option.some_inj.mp hfound
        rw [← hentry]
      · rw [beq_eq_false_iff_ne.mpr (Ne.symm hentry)] at hfound
        rw [ih hfound]

variable {value : Value}

theorem put_self (hfound : value.get key = some found) : value.put key found = value := by
  cases value with
  | dict entries => exact congrArg Value.dict (setEntry_self hfound)
  | _ => rfl

theorem put_put (value : Value) (key : Text) (first second : Value) :
    (value.put key first).put key second = value.put key second := by
  cases value with
  | dict entries => exact congrArg Value.dict (setEntry_setEntry key first second entries)
  | _ => rfl

theorem isDict_of_get (hfound : value.get key = some found) : value.isDict = true := by
  cases value with
  | dict entries => rfl
  | _ => cases hfound

theorem getOr_of_isDict (hdict : value.isDict = true) (key : Text) (default : Value) :
    value.getOr key default = some ((value.get key).getD default) := by
  cases value with
  | dict entries => rfl
  | _ => cases hdict

theorem getOr_eq_some {default : Value} (hfound : value.getOr key default = some found) :
    (value.get key).getD default = found := by
  cases value with
  | dict entries => exact Option.some_inj.mp hfound
  | _ => cases hfound

theorem get_of_getOr {default : Value} (hfound : value.getOr key default = some found)
    (hother : found ≠ default) : value.get key = some found := by
  have hdefault := getOr_eq_some hfound
  cases hget : value.get key with
  | none =>
      rw [hget] at hdefault
      exact absurd hdefault.symm hother
  | some other =>
      rw [hget] at hdefault
      exact congrArg some hdefault

theorem eq_of_isText {constant : Text} (htext : value.isText constant = true) :
    value = .str constant := by
  cases value with
  | str found => rw [isText, beq_iff_eq] at htext; rw [htext]
  | _ => cases htext

theorem get_put (hdict : value.isDict = true) (key other : Text) (new : Value) :
    (value.put key new).get other = if other = key then some new else value.get other := by
  cases value with
  | dict entries => exact lookup_setEntry key other new entries
  | _ => cases hdict

theorem isDict_put (value : Value) (key : Text) (new : Value) :
    (value.put key new).isDict = value.isDict := by
  cases value with
  | dict entries => rfl
  | _ => rfl

end Legroom.Python.Value
