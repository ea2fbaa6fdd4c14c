import Legroom.Lib.Routing
import Legroom.Lib.Utf8

/-!
# The store of originals

What a compressor takes out of a prompt is kept in a store under a key, and the
prompt gets a marker with that key.
-/

namespace Legroom

open Utf8

/-- A store of original payloads.  Its state is of any type. -/
structure CcrStore (State : Type*) where
  put : State → Utf8String → Utf8String → State
  get : State → Utf8String → Option Utf8String

def markerFor (hash : Utf8String) : Utf8String :=
  constant "<<ccr:" ++ hash ++ constant ">>"

namespace CcrStore

variable {State : Type*} (ccrStore : CcrStore State)

end CcrStore

end Legroom

/-!
## The in-memory store

Originals are kept in a map, each with the time of its last `put`.  A queue holds the
keys in the order of their insertion; when the map is full, keys are popped off its
front and their entries removed.  An entry past its time to live is dropped when a `get`
meets it, and its key then stays behind in the queue.
-/

namespace Legroom.Ccr

open Utf8 Routing

structure Entry where
  payload : Utf8String
  inserted : ℕ
  deriving DecidableEq

structure InMemoryCcrStore where
  map : Table Utf8String Entry
  order : List Utf8String
  ttl : ℕ
  capacity : ℕ

/-- The loop of `evict_until_under_capacity`. -/
def sweep (capacity : ℕ) : Table Utf8String Entry → List Utf8String →
    Table Utf8String Entry × List Utf8String
  | map, [] => (map, [])
  | map, oldest :: order =>
      if map.keys.card < capacity then (map, oldest :: order)
      else sweep capacity (map.erase oldest) order

namespace InMemoryCcrStore

def withCapacityAndTtl (capacity ttl : ℕ) : InMemoryCcrStore := ⟨∅, [], ttl, capacity⟩

def len (store : InMemoryCcrStore) : ℕ := store.map.keys.card

def evictUntilUnderCapacity (store : InMemoryCcrStore) : InMemoryCcrStore :=
  let swept := sweep store.capacity store.map store.order
  { store with map := swept.1, order := swept.2 }

/-- A known key gets its new payload in place; a new one makes room first. -/
def put (store : InMemoryCcrStore) (hash payload : Utf8String) (now : ℕ) :
    InMemoryCcrStore :=
  match store.map.lookup hash with
  | some _ => { store with map := store.map.insert hash ⟨payload, now⟩ }
  | none =>
      let room := if store.len ≥ store.capacity then store.evictUntilUnderCapacity else store
      { room with
        map := room.map.insert hash ⟨payload, now⟩
        order := if hash ∈ room.map then room.order else room.order ++ [hash] }

/-- The clock is read once more before an entry that looks expired is removed. -/
def get (store : InMemoryCcrStore) (hash : Utf8String) (now later : ℕ) :
    Option Utf8String × InMemoryCcrStore :=
  match store.map.lookup hash with
  | none => (none, store)
  | some entry =>
      if now - entry.inserted ≤ store.ttl then (some entry.payload, store)
      else if later - entry.inserted > store.ttl then
        (none, { store with map := store.map.erase hash })
      else (some entry.payload, store)

end InMemoryCcrStore

/-! ## Runs -/

/-- A call with its readings of the clock. -/
inductive StoreCall where
  | put (hash payload : Utf8String) (now : ℕ)
  | get (hash : Utf8String) (now later : ℕ)
  deriving DecidableEq

namespace StoreCall

def readings : StoreCall → List ℕ
  | .put _ _ now => [now]
  | .get _ now later => [now, later]

/-- The clock never goes back. -/
def ClockMonotone (calls : List StoreCall) : Prop :=
  (calls.flatMap readings).Pairwise (· ≤ ·)

instance (calls : List StoreCall) : Decidable (ClockMonotone calls) :=
  inferInstanceAs (Decidable ((calls.flatMap readings).Pairwise (· ≤ ·)))

/-- The call is a `put` of the key. -/
def Puts (hash : Utf8String) : StoreCall → Prop
  | .put key _ _ => key = hash
  | .get _ _ _ => False

end StoreCall

namespace InMemoryCcrStore

def after (store : InMemoryCcrStore) : StoreCall → InMemoryCcrStore
  | .put hash payload now => store.put hash payload now
  | .get hash now later => (store.get hash now later).2

def runCalls (store : InMemoryCcrStore) (calls : List StoreCall) : InMemoryCcrStore :=
  calls.foldl after store

variable (store : InMemoryCcrStore)

@[simp]
theorem runCalls_nil : store.runCalls [] = store := rfl

@[simp]
theorem runCalls_cons (call : StoreCall) (calls : List StoreCall) :
    store.runCalls (call :: calls) = (store.after call).runCalls calls := rfl

theorem runCalls_append (front back : List StoreCall) :
    store.runCalls (front ++ back) = (store.runCalls front).runCalls back :=
  List.foldl_append

/-! ## One step -/

/-- Making room or not. -/
def room (store : InMemoryCcrStore) : InMemoryCcrStore :=
  if store.len ≥ store.capacity then store.evictUntilUnderCapacity else store

theorem room_eq :
    store.room = { store with
      map := (sweep store.capacity store.map store.order).1
      order := (sweep store.capacity store.map store.order).2 } := by
  rw [room]
  split_ifs with hfull
  · rfl
  · have hcard : store.map.keys.card < store.capacity := Nat.lt_of_not_le hfull
    cases horder : store.order with
    | nil =>
        rw [sweep, ← horder]
    | cons oldest order =>
        rw [sweep, if_pos hcard, ← horder]

end InMemoryCcrStore

/-- A sweep only takes away. -/
theorem lookup_sweep (capacity : ℕ) (map : Table Utf8String Entry) (order : List Utf8String)
    (hash : Utf8String) :
    (sweep capacity map order).1.lookup hash = map.lookup hash ∨
      (sweep capacity map order).1.lookup hash = none := by
  induction order generalizing map with
  | nil => exact Or.inl rfl
  | cons oldest order ih =>
      rw [sweep]
      split_ifs
      · exact Or.inl rfl
      · rcases ih (map.erase oldest) with hkept | hgone
        · rw [hkept]
          by_cases hkey : hash = oldest
          · rw [hkey]
            exact Or.inr (Finmap.lookup_erase oldest map)
          · exact Or.inl (Finmap.lookup_erase_ne hkey)
        · exact Or.inr hgone

namespace InMemoryCcrStore

/-- What a call does: an update in place, an insertion behind a sweep, a read, or a lazy
expiry. -/
theorem after_cases (store : InMemoryCcrStore) (call : StoreCall) :
    (∃ hash payload now, call = .put hash payload now ∧ hash ∈ store.map ∧
      store.after call = { store with map := store.map.insert hash ⟨payload, now⟩ }) ∨
    (∃ hash payload now, call = .put hash payload now ∧ hash ∉ store.map ∧
      hash ∉ (sweep store.capacity store.map store.order).1 ∧
      store.after call = { store with
        map := (sweep store.capacity store.map store.order).1.insert hash ⟨payload, now⟩
        order := (sweep store.capacity store.map store.order).2 ++ [hash] }) ∨
    (∃ hash now later, call = .get hash now later ∧ store.after call = store) ∨
    (∃ hash now later entry, call = .get hash now later ∧
      store.map.lookup hash = some entry ∧ store.ttl < now - entry.inserted ∧
      store.ttl < later - entry.inserted ∧
      store.after call = { store with map := store.map.erase hash }) := by
  cases call with
  | put hash payload now =>
      cases hlookup : store.map.lookup hash with
      | some entry =>
          refine Or.inl ⟨hash, payload, now, rfl, ?_, ?_⟩
          · exact Finmap.mem_iff.mpr ⟨entry, hlookup⟩
          · rw [after, put]
            simp only [hlookup]
      | none =>
          have hswept : hash ∉ (sweep store.capacity store.map store.order).1 := by
            rw [← Finmap.lookup_eq_none]
            rcases lookup_sweep store.capacity store.map store.order hash with hkept | hgone
            · exact hkept.trans hlookup
            · exact hgone
          refine Or.inr (Or.inl ⟨hash, payload, now, rfl, Finmap.lookup_eq_none.mp hlookup,
            hswept, ?_⟩)
          rw [after, put]
          simp only [hlookup]
          rw [← room, room_eq]
          simp only [if_neg hswept]
  | get hash now later =>
      rw [after, get]
      cases hlookup : store.map.lookup hash with
      | none => exact Or.inr (Or.inr (Or.inl ⟨hash, now, later, rfl, rfl⟩))
      | some entry =>
          dsimp only
          split_ifs with hfresh hexpired
          · exact Or.inr (Or.inr (Or.inl ⟨hash, now, later, rfl, rfl⟩))
          · exact Or.inr (Or.inr (Or.inr ⟨hash, now, later, entry, rfl, hlookup,
              Nat.lt_of_not_le hfresh, hexpired, rfl⟩))
          · exact Or.inr (Or.inr (Or.inl ⟨hash, now, later, rfl, rfl⟩))

end InMemoryCcrStore

end Legroom.Ccr
