import Mathlib.Data.List.Basic

/-!
# Lists that are read item by item

`mapM` in `Option` reads a list if and only if it reads every item.
-/

namespace Legroom

variable {α β : Type*} {read : α → Option β} {items : List α}

theorem isSome_mapM :
    (items.mapM read).isSome = true ↔ ∀ item ∈ items, (read item).isSome = true := by
  induction items with
  | nil => exact iff_of_true rfl fun item hitem => absurd hitem List.not_mem_nil
  | cons item items ih =>
      rw [List.mapM_cons, List.forall_mem_cons, ← ih]
      cases read item with
      | none => exact iff_of_false Bool.false_ne_true fun hboth => nomatch hboth.1
      | some found =>
          cases items.mapM read with
          | none => exact iff_of_false Bool.false_ne_true fun hboth => nomatch hboth.2
          | some rest => exact iff_of_true rfl ⟨rfl, rfl⟩

variable {found : List β}

theorem mapM_cons_eq_some {item : α} :
    (item :: items).mapM read = some found ↔
      ∃ first rest, read item = some first ∧ items.mapM read = some rest ∧
        found = first :: rest := by
  rw [List.mapM_cons, Option.bind_eq_bind, Option.bind_eq_some_iff]
  refine exists_congr fun first => ?_
  rw [Option.bind_eq_bind, Option.bind_eq_some_iff]
  constructor
  · rintro ⟨hfirst, rest, hrest, hfound⟩
    exact ⟨rest, hfirst, hrest, (Option.some_inj.mp hfound).symm⟩
  · rintro ⟨rest, hfirst, hrest, rfl⟩
    exact ⟨hfirst, rest, hrest, rfl⟩

/-- What is read are the readings of the items. -/
theorem mem_of_mapM (hread : items.mapM read = some found) {value : β} :
    value ∈ found ↔ ∃ item ∈ items, read item = some value := by
  induction items generalizing found with
  | nil =>
      obtain rfl := Option.some_inj.mp hread
      exact iff_of_false List.not_mem_nil fun ⟨item, hitem, _⟩ => List.not_mem_nil hitem
  | cons item items ih =>
      obtain ⟨first, rest, hfirst, hrest, rfl⟩ := mapM_cons_eq_some.mp hread
      rw [List.mem_cons, ih hrest, List.exists_mem_cons_iff, hfirst, Option.some_inj, eq_comm]

/-- Each item of what is read has a reading. -/
theorem exists_of_mapM (hread : items.mapM read = some found) {item : α} (hitem : item ∈ items) :
    ∃ value, read item = some value :=
  Option.isSome_iff_exists.mp (isSome_mapM.mp (Option.isSome_of_eq_some hread) item hitem)

end Legroom
