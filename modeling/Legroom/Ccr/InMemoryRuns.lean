import Legroom.Ccr.InMemory

/-!
# Runs of the in-memory store

In every run each live key is in the queue, so a sweep makes room for one more entry.
What the queue holds beyond the live keys was left behind by lazy expiry.  A `get`
answers with the last `put` of its key unless that has expired or was evicted.
-/

namespace Legroom.Ccr

open Utf8 Routing

/-- A bound on the size of the map and, up to `spare` keys, of the queue. -/
structure Coherent (capacity spare : ℕ) (map : Table Utf8String Entry)
    (order : List Utf8String) : Prop where
  queued : ∀ hash ∈ map, hash ∈ order
  card_le : map.keys.card ≤ max capacity 1
  length_le : order.length ≤ map.keys.card + spare

variable {map : Table Utf8String Entry} {hash : Utf8String}

theorem card_insert (entry : Entry) (hhash : hash ∉ map) :
    (map.insert hash entry).keys.card = map.keys.card + 1 := by
  have hkeys : (map.insert hash entry).keys = insert hash map.keys := by
    ext key
    simp [Finmap.mem_keys, Finmap.mem_insert]
  rw [hkeys, Finset.card_insert_of_notMem (by rwa [Finmap.mem_keys])]

theorem keys_insert_of_mem (entry : Entry) (hhash : hash ∈ map) :
    (map.insert hash entry).keys = map.keys := by
  ext key
  simp only [Finmap.mem_keys, Finmap.mem_insert, or_iff_right_iff_imp]
  rintro rfl
  exact hhash

/-- Behind a sweep the map has room, and the queue has lost no live key. -/
theorem sweep_spec {capacity spare : ℕ} {map : Table Utf8String Entry}
    {order : List Utf8String} (hqueued : ∀ hash ∈ map, hash ∈ order)
    (hlength : order.length ≤ map.keys.card + spare) :
    (∀ hash ∈ (sweep capacity map order).1, hash ∈ (sweep capacity map order).2) ∧
      (sweep capacity map order).1.keys.card + 1 ≤ max capacity 1 ∧
      (sweep capacity map order).2.length ≤
        (sweep capacity map order).1.keys.card + spare := by
  induction order generalizing map with
  | nil =>
      have hempty : map.keys.card = 0 := by
        rw [Finset.card_eq_zero, Finset.eq_empty_iff_forall_notMem]
        exact fun hash hhash => List.not_mem_nil (hqueued hash (Finmap.mem_keys.mp hhash))
      refine ⟨hqueued, ?_, hlength⟩
      rw [sweep, hempty]
      exact le_max_right capacity 1
  | cons oldest order ih =>
      rw [sweep]
      split_ifs with hroom
      · exact ⟨hqueued, (Nat.succ_le_of_lt hroom).trans (le_max_left capacity 1), hlength⟩
      · apply ih
        · intro hash hhash
          obtain ⟨hne, hmem⟩ := Finmap.mem_erase.mp hhash
          exact List.mem_of_ne_of_mem hne (hqueued hash hmem)
        · rw [Finmap.keys_erase]
          have hcard := Finset.pred_card_le_card_erase (s := map.keys) (a := oldest)
          rw [List.length_cons] at hlength
          omega

namespace InMemoryCcrStore

/-- How many entries the `get`s of a run drop. -/
def expiries : InMemoryCcrStore → List StoreCall → ℕ
  | _, [] => 0
  | store, call :: calls =>
      (match call with
        | .get _ _ _ => if (store.after call).len < store.len then 1 else 0
        | .put _ _ _ => 0) + expiries (store.after call) calls

theorem capacity_after (store : InMemoryCcrStore) (call : StoreCall) :
    (store.after call).capacity = store.capacity := by
  rcases store.after_cases call with ⟨_, _, _, _, _, heq⟩ | ⟨_, _, _, _, _, _, heq⟩ |
    ⟨_, _, _, _, heq⟩ | ⟨_, _, _, _, _, _, _, _, heq⟩ <;> rw [heq]

theorem ttl_after (store : InMemoryCcrStore) (call : StoreCall) :
    (store.after call).ttl = store.ttl := by
  rcases store.after_cases call with ⟨_, _, _, _, _, heq⟩ | ⟨_, _, _, _, _, _, heq⟩ |
    ⟨_, _, _, _, heq⟩ | ⟨_, _, _, _, _, _, _, _, heq⟩ <;> rw [heq]

variable {store : InMemoryCcrStore}

/-- One call keeps map and queue coherent; a lazy expiry leaves one more key behind. -/
theorem coherent_after {spare : ℕ} (call : StoreCall)
    (hcoherent : Coherent store.capacity spare store.map store.order) :
    Coherent store.capacity (expiries store [call] + spare) (store.after call).map
      (store.after call).order := by
  obtain ⟨hqueued, hcard, hlength⟩ := hcoherent
  rcases store.after_cases call with ⟨hash, payload, now, rfl, hmem, heq⟩ |
    ⟨hash, payload, now, rfl, hnew, hswept, heq⟩ | ⟨hash, now, later, rfl, heq⟩ |
    ⟨hash, now, later, entry, rfl, hlookup, -, -, heq⟩
  · rw [heq]
    refine ⟨fun key hkey => hqueued key ?_, ?_, ?_⟩
    · rcases Finmap.mem_insert.mp hkey with rfl | hkey
      · exact hmem
      · exact hkey
    · rw [keys_insert_of_mem _ hmem]
      exact hcard
    · rw [keys_insert_of_mem _ hmem]
      simpa [expiries] using hlength
  · obtain ⟨hswept_queued, hroom, hshort⟩ := @sweep_spec store.capacity _ _ _ hqueued hlength
    rw [heq]
    refine ⟨fun key hkey => ?_, ?_, ?_⟩
    · rcases Finmap.mem_insert.mp hkey with rfl | hkey
      · simp
      · exact List.mem_append_left _ (hswept_queued key hkey)
    · rw [card_insert _ hswept]
      exact hroom
    · rw [card_insert _ hswept, List.length_append, List.length_singleton]
      simp only [expiries]
      omega
  · rw [heq]
    exact ⟨hqueued, hcard, hlength.trans (by omega)⟩
  · have hmem : hash ∈ store.map.keys :=
      Finmap.mem_keys.mpr (Finmap.mem_iff.mpr ⟨entry, hlookup⟩)
    have herase := Finset.card_erase_add_one hmem
    have hexpired : expiries store [.get hash now later] = 1 := by
      rw [expiries, expiries, heq, len, len, Finmap.keys_erase, if_pos (by omega)]
    rw [hexpired, heq]
    refine ⟨fun key hkey => hqueued key (Finmap.mem_erase.mp hkey).2, ?_, ?_⟩
    · rw [Finmap.keys_erase]
      omega
    · change store.order.length ≤ _
      rw [Finmap.keys_erase]
      omega

theorem expiries_cons (store : InMemoryCcrStore) (call : StoreCall) (calls : List StoreCall) :
    expiries store (call :: calls) =
      expiries store [call] + expiries (store.after call) calls := by
  simp [expiries]

theorem coherent_runCalls {spare : ℕ} (calls : List StoreCall)
    (hcoherent : Coherent store.capacity spare store.map store.order) :
    Coherent store.capacity (expiries store calls + spare) (store.runCalls calls).map
      (store.runCalls calls).order := by
  induction calls generalizing store spare with
  | nil => simpa [expiries] using hcoherent
  | cons call calls ih =>
      have hafter := coherent_after call hcoherent
      rw [← capacity_after store call] at hafter ⊢
      have hrun := ih hafter
      rw [expiries_cons, runCalls_cons]
      rwa [Nat.add_comm (expiries store [call]), Nat.add_assoc]

theorem coherent_new (capacity ttl : ℕ) (calls : List StoreCall) :
    Coherent capacity (expiries (withCapacityAndTtl capacity ttl) calls)
      ((withCapacityAndTtl capacity ttl).runCalls calls).map
      ((withCapacityAndTtl capacity ttl).runCalls calls).order := by
  have hnew : Coherent (withCapacityAndTtl capacity ttl).capacity 0
      (withCapacityAndTtl capacity ttl).map (withCapacityAndTtl capacity ttl).order :=
    ⟨fun hash hhash => absurd hhash Finmap.notMem_empty, Nat.zero_le _, le_rfl⟩
  exact coherent_runCalls calls hnew

/-! ## Answers -/

/-- The call makes room by removing the entry of a key. -/
def Evicts (store : InMemoryCcrStore) (hash : Utf8String) : StoreCall → Prop
  | .put key payload now =>
      key ≠ hash ∧ hash ∈ store.map ∧ hash ∉ (store.put key payload now).map
  | .get _ _ _ => False

/-- Some call of the run evicts the key. -/
def EvictedIn (hash : Utf8String) : InMemoryCcrStore → List StoreCall → Prop
  | _, [] => False
  | store, call :: calls => Evicts store hash call ∨ EvictedIn hash (store.after call) calls

variable {hash : Utf8String}

/-- A call that does not put the key leaves its entry, evicts it, or drops it when it has
expired. -/
theorem lookup_after {call : StoreCall} (hother : ¬call.Puts hash) :
    (store.after call).map.lookup hash = store.map.lookup hash ∧ ¬Evicts store hash call ∨
      (store.after call).map.lookup hash = none ∧ (Evicts store hash call ∨
        ∃ entry, store.map.lookup hash = some entry ∧
          ∃ reading ∈ call.readings, store.ttl < reading - entry.inserted) := by
  rcases store.after_cases call with ⟨key, payload, now, rfl, hmem, heq⟩ |
    ⟨key, payload, now, rfl, hnew, hswept, heq⟩ | ⟨key, now, later, rfl, heq⟩ |
    ⟨key, now, later, entry, rfl, hlookup, hexpired, -, heq⟩
  · have hne : hash ≠ key := fun hkey => hother hkey.symm
    have hsame : (store.after (.put key payload now)).map.lookup hash =
        store.map.lookup hash := by
      rw [heq]
      exact Finmap.lookup_insert_of_ne _ hne
    refine Or.inl ⟨hsame, fun hevicts => hevicts.2.2 ?_⟩
    rw [← Finmap.lookup_isSome]
    change ((store.after (.put key payload now)).map.lookup hash).isSome
    rw [hsame, Finmap.lookup_isSome]
    exact hevicts.2.1
  · have hne : hash ≠ key := fun hkey => hother hkey.symm
    have hsame : (store.after (.put key payload now)).map.lookup hash =
        (sweep store.capacity store.map store.order).1.lookup hash := by
      rw [heq]
      exact Finmap.lookup_insert_of_ne _ hne
    have hevicts : Evicts store hash (.put key payload now) ↔ key ≠ hash ∧
        hash ∈ store.map ∧ (store.after (.put key payload now)).map.lookup hash = none :=
      and_congr_right fun _ => and_congr_right fun _ => Finmap.lookup_eq_none.symm
    rw [hevicts, hsame]
    rcases lookup_sweep store.capacity store.map store.order hash with hkept | hgone
    · refine Or.inl ⟨hkept, ?_⟩
      rintro ⟨-, hmem, hnone⟩
      rw [hkept, Finmap.lookup_eq_none] at hnone
      exact hnone hmem
    · by_cases hmem : hash ∈ store.map
      · exact Or.inr ⟨hgone, Or.inl ⟨hne.symm, hmem, hgone⟩⟩
      · refine Or.inl ⟨hgone.trans (Finmap.lookup_eq_none.mpr hmem).symm, ?_⟩
        rintro ⟨-, hmem', -⟩
        exact hmem hmem'
  · rw [heq]
    exact Or.inl ⟨rfl, id⟩
  · rw [heq]
    by_cases hkey : hash = key
    · subst hkey
      exact Or.inr ⟨Finmap.lookup_erase _ _, Or.inr ⟨entry, hlookup, now, by
        simp [StoreCall.readings], hexpired⟩⟩
    · exact Or.inl ⟨Finmap.lookup_erase_ne hkey, id⟩

variable {calls : List StoreCall}

/-- A key that is not live stays so until it is put. -/
theorem lookup_runCalls_none (hnone : store.map.lookup hash = none)
    (hothers : ∀ call ∈ calls, ¬call.Puts hash) :
    (store.runCalls calls).map.lookup hash = none := by
  induction calls generalizing store with
  | nil => exact hnone
  | cons call calls ih =>
      refine ih ?_ fun other hother => hothers other (List.mem_cons_of_mem _ hother)
      rcases lookup_after (hothers call List.mem_cons_self) with ⟨hsame, -⟩ | ⟨hgone, -⟩
      · exact hsame.trans hnone
      · exact hgone

/-- Behind its last `put` a key keeps its entry unless it is evicted or expires. -/
theorem lookup_runCalls {entry : Entry} {now : ℕ} (hentry : store.map.lookup hash = some entry)
    (hothers : ∀ call ∈ calls, ¬call.Puts hash)
    (hclock : ∀ call ∈ calls, ∀ reading ∈ call.readings, reading ≤ now) :
    (store.runCalls calls).map.lookup hash = some entry ∧ ¬EvictedIn hash store calls ∨
      (store.runCalls calls).map.lookup hash = none ∧
        (EvictedIn hash store calls ∨ store.ttl < now - entry.inserted) := by
  induction calls generalizing store with
  | nil => exact Or.inl ⟨hentry, id⟩
  | cons call calls ih =>
      have hrest : ∀ other ∈ calls, ¬other.Puts hash :=
        fun other hother => hothers other (List.mem_cons_of_mem _ hother)
      have hclockRest : ∀ other ∈ calls, ∀ reading ∈ other.readings, reading ≤ now :=
        fun other hother => hclock other (List.mem_cons_of_mem _ hother)
      rw [runCalls_cons]
      rcases lookup_after (hothers call List.mem_cons_self) with
        ⟨hsame, hkept⟩ | ⟨hgone, hevicts | ⟨found, hfound, reading, hreading, hexpired⟩⟩
      · have hlater := ih (hsame.trans hentry) hrest hclockRest
        rw [ttl_after] at hlater
        rcases hlater with ⟨hlookup, hnot⟩ | ⟨hlookup, hout⟩
        · exact Or.inl ⟨hlookup, not_or.mpr ⟨hkept, hnot⟩⟩
        · exact Or.inr ⟨hlookup, hout.imp_left Or.inr⟩
      · exact Or.inr ⟨lookup_runCalls_none hgone hrest, Or.inl (Or.inl hevicts)⟩
      · rw [hentry] at hfound
        cases hfound
        have hle := hclock call List.mem_cons_self reading hreading
        exact Or.inr ⟨lookup_runCalls_none hgone hrest, Or.inr (by omega)⟩

theorem lookup_after_put (store : InMemoryCcrStore) (hash payload : Utf8String) (now : ℕ) :
    (store.after (.put hash payload now)).map.lookup hash = some ⟨payload, now⟩ := by
  rcases store.after_cases (.put hash payload now) with ⟨_, _, _, hcall, -, heq⟩ |
    ⟨_, _, _, hcall, -, -, heq⟩ | ⟨_, _, _, hcall, -⟩ | ⟨_, _, _, _, hcall, -⟩
  · cases hcall
    rw [heq]
    exact Finmap.lookup_insert _
  · cases hcall
    rw [heq]
    exact Finmap.lookup_insert _
  · cases hcall
  · cases hcall

/-- The answer to a `get`: the payload of the last `put` of the key, or nothing if there
is none or it has expired or was evicted. -/
def AnswersLastPut (store : InMemoryCcrStore) (calls : List StoreCall) : Prop :=
  ∀ hash now later, StoreCall.ClockMonotone (calls ++ [.get hash now later]) →
    let answer := ((store.runCalls calls).get hash now later).1
    ((∀ call ∈ calls, ¬call.Puts hash) → answer = none) ∧
    ∀ front payload time back, calls = front ++ .put hash payload time :: back →
      (∀ call ∈ back, ¬call.Puts hash) →
      let evicted := EvictedIn hash (store.runCalls (front ++ [.put hash payload time])) back
      (now - time ≤ store.ttl ∧ ¬evicted → answer = some payload) ∧
        (store.ttl < now - time ∨ evicted → answer = none)

theorem ttl_runCalls (store : InMemoryCcrStore) (calls : List StoreCall) :
    (store.runCalls calls).ttl = store.ttl := by
  induction calls generalizing store with
  | nil => rfl
  | cons call calls ih => rw [runCalls_cons, ih, ttl_after]

theorem get_of_none (now later : ℕ) (hnone : store.map.lookup hash = none) :
    (store.get hash now later).1 = none := by
  rw [get, hnone]

/-- The clock readings between a `put` and a later `get`. -/
theorem clock_between {front back : List StoreCall} {payload : Utf8String} {time now later : ℕ}
    (hclock : StoreCall.ClockMonotone
      (front ++ .put hash payload time :: back ++ [.get hash now later])) :
    now ≤ later ∧ ∀ call ∈ back, ∀ reading ∈ call.readings, reading ≤ now := by
  rw [StoreCall.ClockMonotone, List.flatMap_append, List.pairwise_append] at hclock
  obtain ⟨-, hget, hacross⟩ := hclock
  refine ⟨(List.pairwise_cons.mp hget).1 later (by simp), ?_⟩
  intro call hcall reading hreading
  refine hacross reading (List.mem_flatMap.mpr ⟨call, ?_, hreading⟩) now
    (by simp [StoreCall.readings])
  simp [hcall]

theorem answersLastPut_new (capacity ttl : ℕ) (calls : List StoreCall) :
    AnswersLastPut (withCapacityAndTtl capacity ttl) calls := by
  intro hash now later hclock answer
  constructor
  · exact fun hothers => get_of_none now later (lookup_runCalls_none rfl hothers)
  · rintro front payload time back rfl hothers evicted
    obtain ⟨hlater, hreadings⟩ := clock_between hclock
    have hrun : (withCapacityAndTtl capacity ttl).runCalls
        (front ++ .put hash payload time :: back) =
        ((withCapacityAndTtl capacity ttl).runCalls (front ++ [.put hash payload time])).runCalls
          back := by
      rw [← runCalls_append, List.append_assoc]
      rfl
    have hput : ((withCapacityAndTtl capacity ttl).runCalls
        (front ++ [.put hash payload time])).map.lookup hash = some ⟨payload, time⟩ := by
      rw [runCalls_append]
      exact lookup_after_put _ hash payload time
    have hlookup := lookup_runCalls hput hothers hreadings
    rw [← hrun, ttl_runCalls] at hlookup
    have httl : ((withCapacityAndTtl capacity ttl).runCalls
        (front ++ .put hash payload time :: back)).ttl = ttl := ttl_runCalls _ _
    rcases hlookup with ⟨hentry, hkept⟩ | ⟨hnone, hout⟩
    · constructor
      · rintro ⟨hfresh, -⟩
        simp only [answer, get, hentry, httl]
        exact congrArg Prod.fst (if_pos hfresh)
      · rintro (hexpired | hevicted)
        · simp only [answer, get, hentry, httl]
          have hpast : ttl < now - time := hexpired
          have hstill : later - time > ttl := hpast.trans_le (Nat.sub_le_sub_right hlater time)
          rw [if_neg (Nat.not_le_of_lt hpast), if_pos hstill]
        · exact absurd hevicted hkept
    · refine ⟨?_, fun _ => get_of_none now later hnone⟩
      rintro ⟨hfresh, hkept⟩
      rcases hout with hevicted | hexpired
      · exact absurd hevicted hkept
      · exact absurd hfresh (Nat.not_le_of_lt hexpired)

end InMemoryCcrStore

/-!
## The store as a bounded map

A bounded map keeps its live keys in the order of their insertion and nothing else, so
the oldest entry is the one at the front.  The store behaves like it as long as no key
is inserted again while an earlier insertion of it is still in the queue.  Behind a lazy
expiry that can happen; then the stale key at the front takes a fresh entry with it.
-/

/-- Remove the entries of some keys. -/
def eraseAll (map : Table Utf8String Entry) (keys : List Utf8String) :
    Table Utf8String Entry :=
  keys.foldl (fun map key => map.erase key) map

variable {map : Table Utf8String Entry} {hash : Utf8String}

theorem mem_eraseAll {keys : List Utf8String} :
    hash ∈ eraseAll map keys ↔ hash ∈ map ∧ hash ∉ keys := by
  induction keys generalizing map with
  | nil => simp [eraseAll]
  | cons key keys ih =>
      rw [eraseAll, List.foldl_cons, ← eraseAll, ih, Finmap.mem_erase, List.mem_cons]
      tauto

/-- A map whose keys are queued in the order of their insertion. -/
structure FifoMap where
  entries : Table Utf8String Entry
  queue : List Utf8String
  nodup : queue.Nodup
  live : ∀ hash, hash ∈ queue ↔ hash ∈ entries

namespace FifoMap

def new : FifoMap := ⟨∅, [], List.nodup_nil, fun hash => by
  simp [Finmap.notMem_empty]⟩

/-- An entry in place of the one that is there. -/
def update (fifo : FifoMap) (hash : Utf8String) (entry : Entry) (hhash : hash ∈ fifo.entries) :
    FifoMap where
  entries := fifo.entries.insert hash entry
  queue := fifo.queue
  nodup := fifo.nodup
  live key := by
    rw [fifo.live, Finmap.mem_insert]
    exact ⟨Or.inr, fun hkey => hkey.elim (fun heq => heq ▸ hhash) id⟩

/-- Remove the oldest entries. -/
def dropOldest (fifo : FifoMap) (count : ℕ) : FifoMap where
  entries := eraseAll fifo.entries (fifo.queue.take count)
  queue := fifo.queue.drop count
  nodup := fifo.nodup.sublist (List.drop_sublist _ _)
  live hash := by
    have hnodup := fifo.nodup
    rw [← List.take_append_drop count fifo.queue, List.nodup_append] at hnodup
    rw [mem_eraseAll, ← fifo.live]
    constructor
    · intro hmem
      exact ⟨List.mem_of_mem_drop hmem, fun htake => hnodup.2.2 hash htake hash hmem rfl⟩
    · rintro ⟨hmem, htake⟩
      rw [← List.take_append_drop count fifo.queue, List.mem_append] at hmem
      exact hmem.resolve_left htake

/-- A new entry behind all others. -/
def push (fifo : FifoMap) (hash : Utf8String) (entry : Entry) (hhash : hash ∉ fifo.entries) :
    FifoMap where
  entries := fifo.entries.insert hash entry
  queue := fifo.queue ++ [hash]
  nodup := by
    rw [List.nodup_append]
    refine ⟨fifo.nodup, List.nodup_singleton hash, fun key hkey other hother heq => hhash ?_⟩
    rwa [← fifo.live, ← List.mem_singleton.mp hother, ← heq]
  live key := by
    rw [List.mem_append, List.mem_singleton, fifo.live, Finmap.mem_insert, or_comm]

/-- Remove one entry. -/
def remove (fifo : FifoMap) (hash : Utf8String) : FifoMap where
  entries := fifo.entries.erase hash
  queue := fifo.queue.erase hash
  nodup := fifo.nodup.erase hash
  live key := by rw [fifo.nodup.mem_erase_iff, fifo.live, Finmap.mem_erase]

/-- Put a payload: in place if the key is there, else behind as many of the newest
entries as there is room for. -/
def put (fifo : FifoMap) (capacity : ℕ) (hash payload : Utf8String) (now : ℕ) : FifoMap :=
  if hhash : hash ∈ fifo.entries then fifo.update hash ⟨payload, now⟩ hhash
  else
    (fifo.dropOldest (fifo.queue.length + 1 - capacity)).push hash ⟨payload, now⟩
      fun hmem => hhash (mem_eraseAll.mp hmem).1

/-- Get a payload; an entry past its time to live is removed. -/
def get (fifo : FifoMap) (ttl : ℕ) (hash : Utf8String) (now later : ℕ) :
    Option Utf8String × FifoMap :=
  match fifo.entries.lookup hash with
  | none => (none, fifo)
  | some entry =>
      if now - entry.inserted ≤ ttl then (some entry.payload, fifo)
      else if later - entry.inserted > ttl then (none, fifo.remove hash)
      else (some entry.payload, fifo)

def after (fifo : FifoMap) (capacity ttl : ℕ) : StoreCall → FifoMap
  | .put hash payload now => fifo.put capacity hash payload now
  | .get hash now later => (fifo.get ttl hash now later).2

def runCalls (fifo : FifoMap) (capacity ttl : ℕ) (calls : List StoreCall) : FifoMap :=
  calls.foldl (fun fifo call => fifo.after capacity ttl call) fifo

end FifoMap

/-! ## Refinement -/

/-- The live keys of a queue. -/
def liveKeys (map : Table Utf8String Entry) (order : List Utf8String) : List Utf8String :=
  order.filter fun hash => hash ∈ map

theorem liveKeys_erase {order : List Utf8String} (hhash : hash ∉ order) :
    liveKeys (map.erase hash) order = liveKeys map order := by
  refine List.filter_congr fun key hkey => ?_
  have hne : key ≠ hash := fun heq => hhash (heq ▸ hkey)
  simp [Finmap.mem_erase, hne]

/-- A sweep of a queue without repetitions removes the oldest live keys. -/
theorem sweep_eq {capacity : ℕ} {map : Table Utf8String Entry} {order : List Utf8String}
    (hqueued : ∀ hash ∈ map, hash ∈ order) (hnodup : order.Nodup) :
    let gone := (liveKeys map order).take (map.keys.card + 1 - capacity)
    (sweep capacity map order).1 = eraseAll map gone ∧
      liveKeys (sweep capacity map order).1 (sweep capacity map order).2 =
        (liveKeys map order).drop (map.keys.card + 1 - capacity) ∧
      (sweep capacity map order).2 <:+ order := by
  induction order generalizing map with
  | nil => simp [sweep, liveKeys, eraseAll]
  | cons oldest order ih =>
      obtain ⟨hnew, hnodupRest⟩ := List.nodup_cons.mp hnodup
      have hqueuedRest : ∀ hash ∈ map.erase oldest, hash ∈ order := by
        intro hash hhash
        obtain ⟨hne, hmem⟩ := Finmap.mem_erase.mp hhash
        exact List.mem_of_ne_of_mem hne (hqueued hash hmem)
      intro gone
      rw [sweep]
      split_ifs with hroom
      · have hzero : map.keys.card + 1 - capacity = 0 := by omega
        rw [show gone = [] by simp [gone, hzero], hzero]
        exact ⟨rfl, rfl, List.suffix_refl _⟩
      · obtain ⟨hmap, hlive, hsuffix⟩ := ih hqueuedRest hnodupRest
        rw [liveKeys_erase hnew] at hmap hlive
        by_cases hmem : oldest ∈ map
        · have hlength : (map.erase oldest).keys.card + 1 = map.keys.card := by
            rw [Finmap.keys_erase]
            exact Finset.card_erase_add_one (Finmap.mem_keys.mpr hmem)
          have hcount : map.keys.card + 1 - capacity =
              ((map.erase oldest).keys.card + 1 - capacity) + 1 := by omega
          have hqueue : liveKeys map (oldest :: order) = oldest :: liveKeys map order :=
            List.filter_cons_of_pos (by simpa using hmem)
          refine ⟨?_, ?_, hsuffix.trans (List.suffix_cons _ _)⟩
          · rw [show gone = oldest :: (liveKeys map order).take
              ((map.erase oldest).keys.card + 1 - capacity) by
                rw [← List.take_succ_cons, ← hcount, ← hqueue]]
            exact hmap
          · rw [hlive, hqueue, hcount, List.drop_succ_cons]
        · have herase : map.erase oldest = map := by
            apply Finmap.ext_lookup
            intro key
            by_cases hkey : key = oldest
            · rw [hkey, Finmap.lookup_erase, Finmap.lookup_eq_none.mpr hmem]
            · exact Finmap.lookup_erase_ne hkey
          have hqueue : liveKeys map (oldest :: order) = liveKeys map order :=
            List.filter_cons_of_neg (by simpa using hmem)
          rw [herase] at hmap hlive hsuffix ⊢
          exact ⟨by rw [show gone = _ from congrArg (List.take _) hqueue]; exact hmap,
            by rw [hqueue]; exact hlive, hsuffix.trans (List.suffix_cons _ _)⟩

namespace InMemoryCcrStore

/-- No key is inserted while an earlier insertion of it is in the queue. -/
def FreshPuts : InMemoryCcrStore → List StoreCall → Prop
  | _, [] => True
  | store, call :: calls =>
      (match call with
        | .put hash _ _ => hash ∈ store.order → hash ∈ store.map
        | .get _ _ _ => True) ∧ FreshPuts (store.after call) calls

/-- The store stands for a bounded map: it has the same entries, and its live keys are
queued in the same order. -/
structure Represents (store : InMemoryCcrStore) (fifo : FifoMap) : Prop where
  entries : store.map = fifo.entries
  queue : liveKeys store.map store.order = fifo.queue
  nodup : store.order.Nodup

variable {store : InMemoryCcrStore} {fifo : FifoMap}

theorem represents_get (hrepresents : Represents store fifo) (hash : Utf8String) (now later : ℕ) :
    (store.get hash now later).1 = (fifo.get store.ttl hash now later).1 ∧
      Represents (store.get hash now later).2 (fifo.get store.ttl hash now later).2 := by
  rw [get, FifoMap.get, ← hrepresents.entries]
  cases hlookup : store.map.lookup hash with
  | none => exact ⟨rfl, hrepresents⟩
  | some entry =>
      dsimp only
      split_ifs
      · exact ⟨rfl, hrepresents⟩
      · refine ⟨rfl, ?_, ?_, hrepresents.nodup⟩
        · exact congrArg (Finmap.erase hash) hrepresents.entries
        · change liveKeys (store.map.erase hash) store.order = fifo.queue.erase hash
          have hnodup : (liveKeys store.map store.order).Nodup := hrepresents.nodup.filter _
          rw [← hrepresents.queue, hnodup.erase_eq_filter, liveKeys, liveKeys,
            List.filter_filter]
          refine List.filter_congr fun key hkey => ?_
          by_cases hsame : key = hash <;> simp [Finmap.mem_erase, hsame]
      · exact ⟨rfl, hrepresents⟩

variable {hash : Utf8String}

theorem represents_update (hrepresents : Represents store fifo) {entry : Entry}
    (hmem : hash ∈ store.map) (hfifo : hash ∈ fifo.entries) :
    Represents { store with map := store.map.insert hash entry }
      (fifo.update hash entry hfifo) := by
  refine ⟨congrArg (Finmap.insert hash entry) hrepresents.entries, ?_, hrepresents.nodup⟩
  rw [FifoMap.update, ← hrepresents.queue]
  refine List.filter_congr fun key hkey => ?_
  simp only [Finmap.mem_insert, decide_eq_decide, or_iff_right_iff_imp]
  rintro rfl
  exact hmem

theorem length_queue (fifo : FifoMap) : fifo.queue.length = fifo.entries.keys.card := by
  have hkeys : fifo.entries.keys = fifo.queue.toFinset := by
    ext key
    rw [Finmap.mem_keys, List.mem_toFinset, fifo.live]
  rw [hkeys, List.toFinset_card_of_nodup fifo.nodup]

/-- An insertion removes the oldest entries of both. -/
theorem represents_insert (hrepresents : Represents store fifo)
    (hqueued : ∀ hash ∈ store.map, hash ∈ store.order) {entry : Entry} (hnew : hash ∉ store.order)
    (hfifo : hash ∉ (fifo.dropOldest (fifo.queue.length + 1 - store.capacity)).entries) :
    Represents { store with
        map := (sweep store.capacity store.map store.order).1.insert hash entry
        order := (sweep store.capacity store.map store.order).2 ++ [hash] }
      ((fifo.dropOldest (fifo.queue.length + 1 - store.capacity)).push hash entry hfifo) := by
  obtain ⟨hmap, hlive, hsuffix⟩ := @sweep_eq store.capacity _ _ hqueued hrepresents.nodup
  have hleft : hash ∉ (sweep store.capacity store.map store.order).2 :=
    fun hmem => hnew (hsuffix.subset hmem)
  rw [hrepresents.queue] at hmap hlive
  refine ⟨?_, ?_, ?_⟩
  · change _ = (eraseAll fifo.entries (fifo.queue.take _)).insert hash entry
    rw [length_queue, ← hrepresents.entries, ← hmap]
  · change _ = fifo.queue.drop _ ++ [hash]
    rw [length_queue, ← hrepresents.entries, ← hlive, liveKeys, List.filter_append,
      List.filter_cons_of_pos (by simp [Finmap.mem_insert]), List.filter_nil, liveKeys]
    refine congrArg (· ++ [hash]) (List.filter_congr fun key hkey => ?_)
    have hne : key ≠ hash := fun heq => hleft (heq ▸ hkey)
    simp [Finmap.mem_insert, hne]
  · rw [List.nodup_append]
    refine ⟨hrepresents.nodup.sublist hsuffix.sublist, List.nodup_singleton hash, ?_⟩
    rintro key hkey other hother rfl
    rw [List.mem_singleton.mp hother] at hkey
    exact hleft hkey

theorem represents_after {call : StoreCall} (hrepresents : Represents store fifo)
    (hqueued : ∀ hash ∈ store.map, hash ∈ store.order) (hfresh : FreshPuts store [call]) :
    Represents (store.after call) (fifo.after store.capacity store.ttl call) := by
  cases call with
  | get hash now later => exact (represents_get hrepresents hash now later).2
  | put hash payload now =>
      rw [FifoMap.after, FifoMap.put]
      rcases store.after_cases (.put hash payload now) with ⟨_, _, _, hcall, hmem, heq⟩ |
        ⟨_, _, _, hcall, hnew, -, heq⟩ | ⟨_, _, _, hcall, -⟩ | ⟨_, _, _, _, hcall, -⟩
      · cases hcall
        rw [heq, dif_pos (hrepresents.entries ▸ hmem)]
        exact represents_update hrepresents hmem _
      · cases hcall
        rw [heq, dif_neg (hrepresents.entries ▸ hnew)]
        exact represents_insert hrepresents hqueued (fun hmem => hnew (hfresh.1 hmem)) _
      · cases hcall
      · cases hcall

theorem represents_runCalls {spare : ℕ} {calls : List StoreCall}
    (hrepresents : Represents store fifo)
    (hcoherent : Coherent store.capacity spare store.map store.order)
    (hfresh : FreshPuts store calls) :
    Represents (store.runCalls calls) (fifo.runCalls store.capacity store.ttl calls) := by
  induction calls generalizing store fifo spare with
  | nil => exact hrepresents
  | cons call calls ih =>
      have hafter := represents_after hrepresents hcoherent.queued ⟨hfresh.1, trivial⟩
      have hstays := coherent_after call hcoherent
      rw [← capacity_after store call] at hstays
      have hrun := ih hafter hstays hfresh.2
      rw [capacity_after, ttl_after] at hrun
      exact hrun

theorem represents_new (capacity ttl : ℕ) :
    Represents (withCapacityAndTtl capacity ttl) FifoMap.new :=
  ⟨rfl, rfl, List.nodup_nil⟩

/-- In every run each live key is queued, the map keeps to its capacity, the queue is
longer by no more than the expiries of the run, and a `get` answers with the last `put` of
its key unless that has expired or was evicted.  If no key is inserted while an earlier
insertion is queued, the store is a bounded map that evicts its oldest entries. -/
theorem runCalls_spec (capacity ttl : ℕ) (calls : List StoreCall) :
    let start := withCapacityAndTtl capacity ttl
    let store := start.runCalls calls
    (∀ hash ∈ store.map, hash ∈ store.order) ∧
      store.len ≤ max capacity 1 ∧
      store.order.length ≤ max capacity 1 + expiries start calls ∧
      AnswersLastPut start calls ∧
      (FreshPuts start calls →
        let fifo := FifoMap.new.runCalls capacity ttl calls
        Represents store fifo ∧ ∀ hash now later,
          (store.get hash now later).1 = (fifo.get ttl hash now later).1) := by
  have hcoherent := coherent_new capacity ttl calls
  refine ⟨hcoherent.queued, hcoherent.card_le,
    hcoherent.length_le.trans (Nat.add_le_add_right hcoherent.card_le _),
    answersLastPut_new capacity ttl calls, fun hfresh => ?_⟩
  have hnew : Coherent capacity 0 (withCapacityAndTtl capacity ttl).map
      (withCapacityAndTtl capacity ttl).order := coherent_new capacity ttl []
  have hrepresents := represents_runCalls (represents_new capacity ttl) hnew hfresh
  refine ⟨hrepresents, fun hash now later => ?_⟩
  have hanswer := (represents_get hrepresents hash now later).1
  rw [ttl_runCalls] at hanswer
  exact hanswer

def keyA : Utf8String := Utf8.constant "a"
def keyB : Utf8String := Utf8.constant "b"
def keyC : Utf8String := Utf8.constant "c"

/-- `a` expires and comes back behind `b`, so its first place in the queue is stale. -/
def staleRun : List StoreCall :=
  [.put keyA keyA 0, .get keyA 11 11, .put keyB keyB 12, .put keyA keyA 13]

/-- Reads and expiries of one key over and over again. -/
def churn : ℕ → ℕ → List StoreCall
  | 0, _ => []
  | count + 1, now =>
      .put keyA keyA now :: .get keyA (now + 11) (now + 11) :: churn count (now + 11)

theorem runCalls_spec_twoKeys :
    let fifo := FifoMap.new.runCalls 1 10 [.put keyA keyA 0, .put keyB keyB 1]
    ((withCapacityAndTtl 1 10).runCalls [.put keyA keyA 0, .put keyB keyB 1]).map =
      fifo.entries := by
  have hfresh : FreshPuts (withCapacityAndTtl 1 10) [.put keyA keyA 0, .put keyB keyB 1] := by
    refine ⟨fun hmem => ?_, fun hmem => ?_, trivial⟩
    · exact absurd hmem List.not_mem_nil
    · exact absurd hmem (by decide)
  exact ((runCalls_spec 1 10 _).2.2.2.2 hfresh).1.entries

theorem clockMonotone_churn (count now : ℕ) :
    StoreCall.ClockMonotone (churn count now) ∧
      ∀ reading ∈ (churn count now).flatMap StoreCall.readings, now ≤ reading := by
  induction count generalizing now with
  | zero => exact ⟨List.Pairwise.nil, by simp [churn]⟩
  | succ count ih =>
      obtain ⟨hmonotone, hlater⟩ := ih (now + 11)
      have hreadings : (churn (count + 1) now).flatMap StoreCall.readings =
          now :: (now + 11) :: (now + 11) ::
            (churn count (now + 11)).flatMap StoreCall.readings := rfl
      rw [StoreCall.ClockMonotone, hreadings]
      refine ⟨?_, ?_⟩
      · refine .cons ?_ (.cons ?_ (.cons hlater hmonotone))
        · simp only [List.mem_cons]
          rintro reading (rfl | rfl | hreading)
          · omega
          · omega
          · exact (Nat.le_add_right now 11).trans (hlater reading hreading)
        · simp only [List.mem_cons]
          rintro reading (rfl | hreading)
          · exact le_rfl
          · exact hlater reading hreading
      · simp only [List.mem_cons]
        rintro reading (rfl | rfl | rfl | hreading)
        · exact le_rfl
        · omega
        · omega
        · exact (Nat.le_add_right now 11).trans (hlater reading hreading)

/-- A key that comes and expires leaves one more place in the queue each time. -/
theorem runCalls_churn (count now : ℕ) (order : List Utf8String) :
    (InMemoryCcrStore.runCalls ⟨∅, order, 10, 2⟩ (churn count now)).order.length =
      order.length + count := by
  induction count generalizing now order with
  | zero => rfl
  | succ count ih =>
      have hput : InMemoryCcrStore.after ⟨∅, order, 10, 2⟩ (.put keyA keyA now) =
          ⟨(∅ : Table Utf8String Entry).insert keyA ⟨keyA, now⟩, order ++ [keyA], 10, 2⟩ := by
        simp [after, put, len, Finmap.notMem_empty]
      have hget : InMemoryCcrStore.after
          ⟨(∅ : Table Utf8String Entry).insert keyA ⟨keyA, now⟩, order ++ [keyA], 10, 2⟩
          (.get keyA (now + 11) (now + 11)) = ⟨∅, order ++ [keyA], 10, 2⟩ := by
        have herase : ((∅ : Table Utf8String Entry).insert keyA ⟨keyA, now⟩).erase keyA = ∅ := by
          apply Finmap.ext_lookup
          intro key
          by_cases hkey : key = keyA
          · rw [hkey, Finmap.lookup_erase, Finmap.lookup_empty]
          · rw [Finmap.lookup_erase_ne hkey, Finmap.lookup_insert_of_ne _ hkey]
        simp [after, get, herase]
      rw [churn, runCalls_cons, runCalls_cons, hput, hget, ih]
      simp only [List.length_append, List.length_singleton]
      omega

/-- The put of `c` evicts `a` and keeps `b`, which was inserted before; and no bound
holds for the queue of a store of two entries. -/
theorem staleKey_evicts :
    (StoreCall.ClockMonotone (staleRun ++ [.put keyC keyC 14]) ∧
      let store := (withCapacityAndTtl 2 10).runCalls staleRun
      store.map.lookup keyB = some ⟨keyB, 12⟩ ∧ store.map.lookup keyA = some ⟨keyA, 13⟩ ∧
        Evicts store keyA (.put keyC keyC 14) ∧ ¬Evicts store keyB (.put keyC keyC 14)) ∧
    ∀ bound, ∃ calls, StoreCall.ClockMonotone calls ∧
      bound < ((withCapacityAndTtl 2 10).runCalls calls).order.length := by
  refine ⟨⟨by decide, by decide, by decide, ?_, ?_⟩, fun bound => ?_⟩
  · exact ⟨by decide, by decide, by decide⟩
  · exact fun hevicts => absurd hevicts.2.2 (by decide)
  · refine ⟨churn (bound + 1) 0, (clockMonotone_churn _ _).1, ?_⟩
    rw [withCapacityAndTtl, runCalls_churn]
    simp

end InMemoryCcrStore

end Legroom.Ccr
