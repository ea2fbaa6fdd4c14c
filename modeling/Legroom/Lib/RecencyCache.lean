import Mathlib.Data.List.Basic

/-!
# Caches that may forget

A bounded cache answers with the last entry that was put for a key, or with
nothing: what it evicts is its own affair.  The list ordered by recency is one.
-/

namespace Legroom

structure RecencyCache (Key Entry : Type) where
  Cache : Type
  /-- What is cached for a key, without use of it. -/
  peek : Cache → Key → Option Entry
  get : Cache → Key → Option Entry × Cache
  put : Cache → Key → Entry → Cache
  get_fst : ∀ cache key, (get cache key).1 = peek cache key
  peek_get : ∀ cache key other, peek (get cache key).2 other = peek cache other
  peek_put_self : ∀ cache key entry, peek (put cache key entry) key = some entry
  peek_put_other : ∀ cache key entry other, other ≠ key →
    peek (put cache key entry) other = peek cache other ∨
      peek (put cache key entry) other = none

namespace RecencyCache

variable {Key Entry : Type} [DecidableEq Key]

def find (cache : List (Key × Entry)) (key : Key) : Option Entry :=
  (cache.find? fun kept => kept.1 = key).map Prod.snd

/-- The entries without those of a key. -/
def without (cache : List (Key × Entry)) (key : Key) : List (Key × Entry) :=
  cache.filter fun kept => kept.1 ≠ key

theorem find_cons (kept : Key × Entry) (cache : List (Key × Entry)) (key : Key) :
    find (kept :: cache) key = if kept.1 = key then some kept.2 else find cache key := by
  rw [find, List.find?_cons]
  by_cases hkey : kept.1 = key <;> simp [hkey, find]

theorem find_without (cache : List (Key × Entry)) {key other : Key} (hother : other ≠ key) :
    find (without cache key) other = find cache other := by
  induction cache with
  | nil => rfl
  | cons kept cache ih =>
      rw [without, List.filter_cons, find_cons]
      by_cases hkept : kept.1 = key
      · have hne : kept.1 ≠ other := fun heq => hother (heq.symm.trans hkept)
        rw [if_neg (by simpa using hkept), if_neg hne]
        exact ih
      · rw [if_pos (by simpa using hkept), find_cons]
        split_ifs
        · rfl
        · exact ih

theorem find_take (cache : List (Key × Entry)) (size : ℕ) (key : Key) :
    find (cache.take size) key = find cache key ∨ find (cache.take size) key = none := by
  induction cache generalizing size with
  | nil => exact .inl (by rw [List.take_nil])
  | cons kept cache ih =>
      cases size with
      | zero => exact .inr rfl
      | succ size =>
          rw [List.take_succ_cons, find_cons, find_cons]
          split_ifs
          · exact .inl rfl
          · exact ih size

/-- The entries in the order of their last use.  One more than `spare` are kept. -/
def recencyList (Key Entry : Type) [DecidableEq Key] (spare : ℕ) : RecencyCache Key Entry where
  Cache := List (Key × Entry)
  peek := find
  get cache key :=
    match find cache key with
    | some entry => (some entry, (key, entry) :: without cache key)
    | none => (none, cache)
  put cache key entry := (key, entry) :: (without cache key).take spare
  get_fst cache key := by
    cases find cache key <;> rfl
  peek_get cache key other := by
    cases hfind : find cache key with
    | none => rfl
    | some entry =>
        dsimp only
        rw [find_cons]
        split_ifs with hkey
        · exact hfind.symm.trans (congrArg (find cache) hkey)
        · exact find_without cache (Ne.symm hkey)
  peek_put_self cache key entry := by rw [find_cons, if_pos rfl]
  peek_put_other cache key entry other hother := by
    rw [find_cons, if_neg (Ne.symm hother), ← find_without cache hother]
    exact find_take _ spare other

end RecencyCache

end Legroom
