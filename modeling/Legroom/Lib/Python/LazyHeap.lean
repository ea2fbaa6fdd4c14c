import Legroom.Lib.Python.Dict
import Mathlib.Data.Prod.Lex
import Mathlib.Data.List.Lex
import Mathlib.Data.List.Perm.Subperm
import Mathlib.Data.List.MinMax

/-!
# Heaps with lazy deletion

A `heapq` beside a dictionary holds a pair of priority and key for every entry.  Entries
are removed from the dictionary only, or overwritten there; the pairs they leave in the
heap are counted as stale until a pop meets them.
-/

namespace Legroom.Python

section

variable {Item : Type*} [LinearOrder Item]

def heappush (heap : List Item) (item : Item) : List Item := item :: heap

/-- A least item, and the heap without it. -/
def heappop (heap : List Item) : Option (Item × List Item) :=
  (heap.argmin id).map fun least => (least, heap.erase least)

theorem heappop_eq_none_iff {heap : List Item} : heappop heap = none ↔ heap = [] := by
  rw [heappop, Option.map_eq_none_iff, List.argmin_eq_none]

variable {heap rest : List Item} {least : Item}

theorem mem_of_heappop (hpop : heappop heap = some (least, rest)) : least ∈ heap := by
  obtain ⟨found, hfound, heq⟩ := Option.map_eq_some_iff.mp hpop
  cases heq
  exact List.argmin_mem hfound

theorem le_of_heappop (hpop : heappop heap = some (least, rest)) {item : Item}
    (hitem : item ∈ heap) : least ≤ item := by
  obtain ⟨found, hfound, heq⟩ := Option.map_eq_some_iff.mp hpop
  cases heq
  exact List.le_of_mem_argmin hitem hfound

theorem rest_of_heappop (hpop : heappop heap = some (least, rest)) : rest = heap.erase least := by
  obtain ⟨found, -, heq⟩ := Option.map_eq_some_iff.mp hpop
  cases heq
  rfl

theorem mem_rest_of_heappop (hpop : heappop heap = some (least, rest)) {item : Item}
    (hitem : item ∈ heap) (hne : item ≠ least) : item ∈ rest := by
  rw [rest_of_heappop hpop]
  exact (List.mem_erase_of_ne hne).mpr hitem

theorem length_heappop (hpop : heappop heap = some (least, rest)) :
    rest.length + 1 = heap.length := by
  have hmem := mem_of_heappop hpop
  rw [rest_of_heappop hpop, List.length_erase_of_mem hmem]
  exact Nat.sub_add_cancel (List.length_pos_of_mem hmem)

end

/-! ## Beside a dictionary -/

section

variable {Key Entry Priority : Type*} [DecidableEq Key] (priority : Entry → Priority)

/-- The pairs of the entries. -/
def heapItems (dict : Dict Key Entry) : List (Priority ×ₗ Key) :=
  dict.entries.map fun entry => toLex (priority entry.2, entry.1)

/-- Every entry has its pair in the heap, and the rest of the heap is stale. -/
structure Covers (dict : Dict Key Entry) (heap : List (Priority ×ₗ Key)) (stale : ℕ) : Prop where
  mem : ∀ key entry, dict.get? key = some entry → toLex (priority entry, key) ∈ heap
  length : heap.length = dict.size + stale

variable {priority} {dict : Dict Key Entry} {heap : List (Priority ×ₗ Key)} {stale : ℕ}
  {key : Key} {value old : Entry}

theorem mem_heapItems {item : Priority ×ₗ Key} : item ∈ heapItems priority dict ↔
    ∃ entry, dict.get? (ofLex item).2 = some entry ∧ priority entry = (ofLex item).1 := by
  rw [heapItems, List.mem_map]
  constructor
  · rintro ⟨entry, hentry, rfl⟩
    exact ⟨entry.2, Dict.get?_eq_some_iff.mpr hentry, rfl⟩
  · rintro ⟨entry, hentry, hpriority⟩
    exact ⟨_, Dict.get?_eq_some_iff.mp hentry, congrArg (fun first => toLex (first, _)) hpriority⟩

omit [DecidableEq Key] in
theorem nodup_heapItems (dict : Dict Key Entry) : (heapItems priority dict).Nodup := by
  refine List.Nodup.of_map (fun item => (ofLex item).2) ?_
  rw [heapItems, List.map_map]
  exact dict.nodup

theorem size_set_of_mem (hold : dict.get? key = some old) :
    (dict.set key value).size = dict.size := by
  rw [Dict.size, Dict.entries_set, if_pos (Dict.mem_keys_iff.mpr ⟨old, hold⟩), List.length_map]
  rfl

theorem size_set_of_not_mem (hkey : dict.get? key = none) :
    (dict.set key value).size = dict.size + 1 := by
  rw [Dict.size, Dict.entries_set, if_neg (Dict.get?_eq_none_iff.mp hkey), List.length_append]
  rfl

theorem Covers.empty : Covers priority (Dict.empty : Dict Key Entry) [] 0 := by
  refine ⟨fun key entry hentry => ?_, rfl⟩
  cases hentry

/-- A rebuilt heap has no stale pairs. -/
theorem Covers.rebuild (dict : Dict Key Entry) :
    Covers priority dict (heapItems priority dict) 0 where
  mem _ entry hentry := mem_heapItems.mpr ⟨entry, hentry, rfl⟩
  length := List.length_map _

theorem Covers.set_new (hcovers : Covers priority dict heap stale) (hkey : dict.get? key = none) :
    Covers priority (dict.set key value) (heappush heap (toLex (priority value, key))) stale := by
  refine ⟨fun other entry hentry => ?_, ?_⟩
  · rw [Dict.get?_set] at hentry
    split_ifs at hentry with hother
    · cases hentry
      subst hother
      exact List.mem_cons_self
    · exact List.mem_cons_of_mem _ (hcovers.mem other entry hentry)
  · rw [heappush, List.length_cons, hcovers.length, size_set_of_not_mem hkey]
    omega

/-- The pair of an entry that is overwritten turns stale. -/
theorem Covers.set_old (hcovers : Covers priority dict heap stale)
    (hold : dict.get? key = some old) :
    Covers priority (dict.set key value) (heappush heap (toLex (priority value, key)))
      (stale + 1) := by
  refine ⟨fun other entry hentry => ?_, ?_⟩
  · rw [Dict.get?_set] at hentry
    split_ifs at hentry with hother
    · cases hentry
      subst hother
      exact List.mem_cons_self
    · exact List.mem_cons_of_mem _ (hcovers.mem other entry hentry)
  · rw [heappush, List.length_cons, hcovers.length, size_set_of_mem hold]
    omega

/-- A change that keeps the priority needs no new pair. -/
theorem Covers.update (hcovers : Covers priority dict heap stale)
    (hold : dict.get? key = some old) (hpriority : priority value = priority old) :
    Covers priority (dict.set key value) heap stale := by
  refine ⟨fun other entry hentry => ?_, hcovers.length.trans (by rw [size_set_of_mem hold])⟩
  rw [Dict.get?_set] at hentry
  split_ifs at hentry with hother
  · cases hentry
    subst hother
    rw [hpriority]
    exact hcovers.mem _ old hold
  · exact hcovers.mem other entry hentry

/-- The pairs of entries that are dropped turn stale. -/
theorem Covers.filter (hcovers : Covers priority dict heap stale) (kept : Key → Entry → Bool) :
    Covers priority (dict.filter kept) heap (stale + (dict.size - (dict.filter kept).size)) := by
  refine ⟨fun other entry hentry => ?_, ?_⟩
  · rw [Dict.get?_filter] at hentry
    exact hcovers.mem other entry (Option.filter_eq_some_iff.mp hentry).1
  · have hle : (dict.filter kept).size ≤ dict.size := List.length_filter_le _ _
    rw [hcovers.length]
    omega

theorem size_erase_of_mem (hold : dict.get? key = some old) :
    (dict.erase key).size + 1 = dict.size := by
  rw [← Dict.size_erase dict key, if_pos (Dict.mem_keys_iff.mpr ⟨old, hold⟩)]

theorem Covers.erase (hcovers : Covers priority dict heap stale)
    (hold : dict.get? key = some old) : Covers priority (dict.erase key) heap (stale + 1) := by
  refine ⟨fun other entry hentry => ?_, ?_⟩
  · rw [Dict.get?_erase] at hentry
    split_ifs at hentry
    exact hcovers.mem other entry hentry
  · rw [hcovers.length, ← size_erase_of_mem hold]
    omega

end

section

variable {Key Entry Priority : Type*} [LinearOrder Key] [LinearOrder Priority] [DecidableEq Key]
  {priority : Entry → Priority} {dict : Dict Key Entry} {heap rest : List (Priority ×ₗ Key)}
  {stale : ℕ} {key : Key} {value old : Entry} {least : Priority ×ₗ Key}

/-- No entry comes before the pair that is popped. -/
theorem Covers.least_le (hcovers : Covers priority dict heap stale)
    (hpop : heappop heap = some (least, rest)) (hentry : dict.get? key = some value) :
    (ofLex least).1 ≤ priority value := by
  have hle := le_of_heappop hpop (hcovers.mem key value hentry)
  exact (Prod.Lex.le_iff.mp hle).elim le_of_lt fun hsame => le_of_eq hsame.1

/-- Popping the pair of an entry goes with removing the entry. -/
theorem Covers.pop_live (hcovers : Covers priority dict heap stale)
    (hpop : heappop heap = some (least, rest)) (hold : dict.get? (ofLex least).2 = some old) :
    Covers priority (dict.erase (ofLex least).2) rest stale := by
  refine ⟨fun other entry hentry => ?_, ?_⟩
  · rw [Dict.get?_erase] at hentry
    split_ifs at hentry with hother
    have hne : toLex (priority entry, other) ≠ least := by
      rintro rfl
      exact hother rfl
    exact mem_rest_of_heappop hpop (hcovers.mem other entry hentry) hne
  · have hlength := length_heappop hpop
    rw [hcovers.length, ← size_erase_of_mem hold] at hlength
    omega

/-- A pair of no entry is a stale one. -/
theorem Covers.pop_stale (hcovers : Covers priority dict heap stale)
    (hpop : heappop heap = some (least, rest)) (hstale : least ∉ heapItems priority dict) :
    0 < stale ∧ Covers priority dict rest (stale - 1) := by
  have hmem : ∀ other entry, dict.get? other = some entry →
      toLex (priority entry, other) ∈ rest := by
    intro other entry hentry
    refine mem_rest_of_heappop hpop (hcovers.mem other entry hentry) ?_
    rintro rfl
    exact hstale (mem_heapItems.mpr ⟨entry, hentry, rfl⟩)
  have hsubset : heapItems priority dict ⊆ rest := by
    intro item hitem
    obtain ⟨entry, hentry, hpriority⟩ := mem_heapItems.mp hitem
    have hfound := hmem _ entry hentry
    rwa [hpriority] at hfound
  have hle : dict.size ≤ rest.length := by
    have hsize := (List.subperm_of_subset (nodup_heapItems dict) hsubset).length_le
    rwa [heapItems, List.length_map] at hsize
  have hlength := length_heappop hpop
  rw [hcovers.length] at hlength
  exact ⟨by omega, hmem, by omega⟩

end

end Legroom.Python
