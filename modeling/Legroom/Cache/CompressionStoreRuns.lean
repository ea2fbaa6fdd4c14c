import Legroom.Cache.CompressionStore
import Mathlib.Tactic.NormNum

/-!
# Runs of the compression store

Whatever is called, every entry has its pair in the heap, the pairs of the heap are
those of the entries and the stale ones, and there are no more entries than allowed.
An entry that makes room is never younger than one that stays.  The heap is only
rebuilt when a new key comes, so it grows with every content that is stored again.
-/

namespace Legroom.Cache

open Python

namespace CompressionStore

/-- Every entry has its pair in the heap. -/
abbrev HeapCovers (store : CompressionStore) : Prop :=
  Covers CompressionEntry.createdAt store.backend store.evictionHeap store.staleHeapEntries

/-! ## Eviction -/

section

variable (store : CompressionStore) (entry : CompressionEntry) (now : ℚ)

/-- Recording a success queues an event and does nothing else. -/
theorem recordEvictionSuccess_eq : ∃ pending, store.recordEvictionSuccess entry now =
    { store with pendingFeedbackEvents := pending } := by
  rw [recordEvictionSuccess]
  split_ifs
  · exact ⟨_, rfl⟩
  · exact ⟨_, rfl⟩

/-- A popped pair is that of an entry, which is removed, or it is stale. -/
theorem evictPopped_cases (eviction : Text → ℚ) (item : ℚ ×ₗ Text) :
    (∃ entry pending, store.backend.get? (ofLex item).2 = some entry ∧
        entry.createdAt = (ofLex item).1 ∧
        store.evictPopped eviction item =
          { store with
            backend := store.backend.erase (ofLex item).2
            pendingFeedbackEvents := pending }) ∨
      item ∉ heapItems CompressionEntry.createdAt store.backend ∧
        store.evictPopped eviction item =
          { store with staleHeapEntries := store.staleHeapEntries - 1 } := by
  rw [evictPopped]
  cases hentry : store.backend.get? (ofLex item).2 with
  | none =>
      refine .inr ⟨fun hmem => ?_, rfl⟩
      obtain ⟨entry, hfound, -⟩ := mem_heapItems.mp hmem
      rw [hentry] at hfound
      cases hfound
  | some entry =>
      by_cases hcreated : entry.createdAt = (ofLex item).1
      · obtain ⟨pending, hrecord⟩ :=
          recordEvictionSuccess_eq store entry (eviction (ofLex item).2)
        refine .inl ⟨entry, ?_, rfl, hcreated, ?_⟩
        · exact if store.enableFeedback && entry.retrievalCount == 0 then pending
            else store.pendingFeedbackEvents
        · dsimp only
          rw [if_pos hcreated, hrecord]
          split_ifs <;> rfl
      · refine .inr ⟨fun hmem => ?_, if_neg hcreated⟩
        obtain ⟨found, hfound, heq⟩ := mem_heapItems.mp hmem
        rw [hentry] at hfound
        cases hfound
        exact hcreated heq

end

/-- What eviction leaves: entries that were there, the oldest gone first, and room for one
more. -/
structure Evicted (before after : CompressionStore) : Prop where
  covers : after.HeapCovers
  room : (after.backend.size : ℤ) < after.maxEntries ∨ after.backend.size = 0
  survivors : ∀ key entry, after.backend.get? key = some entry → before.backend.get? key = some entry
  oldest : ∀ key entry, before.backend.get? key = some entry → after.backend.get? key = none →
    ∀ other survivor, after.backend.get? other = some survivor → entry.createdAt ≤ survivor.createdAt
  heapLength : after.evictionHeap.length ≤ before.evictionHeap.length
  maxEntries : after.maxEntries = before.maxEntries
  settings : after.defaultTtl = before.defaultTtl ∧ after.enableFeedback = before.enableFeedback

theorem evicted_refl {store : CompressionStore} (hcovers : store.HeapCovers)
    (hroom : (store.backend.size : ℤ) < store.maxEntries ∨ store.backend.size = 0) :
    Evicted store store where
  covers := hcovers
  room := hroom
  survivors _ _ hentry := hentry
  oldest _ _ hbefore hafter := by
    rw [hbefore] at hafter
    cases hafter
  heapLength := le_rfl
  maxEntries := rfl
  settings := ⟨rfl, rfl⟩

variable {old : CompressionEntry}

/-- A pass that removes the oldest entry, and the passes after it. -/
theorem Evicted.of_erase {store next after : CompressionStore} (hevicted : Evicted next after)
    {key : Text} (hold : store.backend.get? key = some old)
    (holdest : ∀ other survivor, store.backend.get? other = some survivor →
      old.createdAt ≤ survivor.createdAt) (hbackend : next.backend = store.backend.erase key)
    (hheap : next.evictionHeap.length ≤ store.evictionHeap.length)
    (hmax : next.maxEntries = store.maxEntries)
    (hsettings : next.defaultTtl = store.defaultTtl ∧ next.enableFeedback = store.enableFeedback) :
    Evicted store after := by
  have hnext : ∀ other entry, next.backend.get? other = some entry →
      store.backend.get? other = some entry := by
    intro other entry hentry
    rw [hbackend, Dict.get?_erase] at hentry
    split_ifs at hentry
    exact hentry
  refine ⟨hevicted.covers, hevicted.room, fun other entry hentry =>
    hnext other entry (hevicted.survivors other entry hentry), ?_,
    hevicted.heapLength.trans hheap, hevicted.maxEntries.trans hmax,
    hevicted.settings.1.trans hsettings.1, hevicted.settings.2.trans hsettings.2⟩
  intro other entry hbefore hafter survivor found hfound
  by_cases hother : other = key
  · subst hother
    rw [hold] at hbefore
    cases hbefore
    exact holdest survivor found (hnext _ _ (hevicted.survivors survivor found hfound))
  · refine hevicted.oldest other entry ?_ hafter survivor found hfound
    rw [hbackend, Dict.get?_erase, if_neg hother, hbefore]

/-- A pass that only drops a stale pair, and the passes after it. -/
theorem Evicted.of_same {store next after : CompressionStore} (hevicted : Evicted next after)
    (hbackend : next.backend = store.backend)
    (hheap : next.evictionHeap.length ≤ store.evictionHeap.length)
    (hmax : next.maxEntries = store.maxEntries)
    (hsettings : next.defaultTtl = store.defaultTtl ∧ next.enableFeedback = store.enableFeedback) :
    Evicted store after := by
  refine ⟨hevicted.covers, hevicted.room, ?_, ?_, hevicted.heapLength.trans hheap,
    hevicted.maxEntries.trans hmax, hevicted.settings.1.trans hsettings.1,
    hevicted.settings.2.trans hsettings.2⟩
  · rw [← hbackend]
    exact hevicted.survivors
  · rw [← hbackend]
    exact hevicted.oldest

theorem evictOldest_spec (eviction : Text → ℚ) (fuel : ℕ) {store : CompressionStore}
    (hcovers : store.HeapCovers) (hfuel : store.evictionHeap.length ≤ fuel) :
    Evicted store (evictOldest eviction fuel store) := by
  induction fuel generalizing store with
  | zero =>
      refine evicted_refl hcovers (.inr ?_)
      have hlength := hcovers.length
      omega
  | succ fuel ih =>
      rw [evictOldest]
      split_ifs with hfull
      · cases hpop : heappop store.evictionHeap with
        | none =>
            refine evicted_refl hcovers (.inr ?_)
            have hlength := hcovers.length
            rw [heappop_eq_none_iff.mp hpop, List.length_nil] at hlength
            omega
        | some popped =>
            obtain ⟨item, rest⟩ := popped
            have hlength := length_heappop hpop
            have hrest : rest.length ≤ fuel := by omega
            have hshorter : rest.length ≤ store.evictionHeap.length := by omega
            dsimp only
            rcases evictPopped_cases { store with evictionHeap := rest } eviction item with
              ⟨entry, pending, hentry, hcreated, hpopped⟩ | ⟨hstale, hpopped⟩
            · have hold : store.backend.get? (ofLex item).2 = some entry := hentry
              rw [hpopped]
              refine Evicted.of_erase (ih ?_ hrest) hold ?_ rfl hshorter rfl ⟨rfl, rfl⟩
              · exact hcovers.pop_live hpop hold
              · intro other survivor hsurvivor
                rw [hcreated]
                exact hcovers.least_le hpop hsurvivor
            · rw [hpopped]
              refine Evicted.of_same (ih ?_ hrest) rfl hshorter rfl ⟨rfl, rfl⟩
              exact (hcovers.pop_stale hpop hstale).2
      · exact evicted_refl hcovers (.inl (not_le.mp hfull))

/-- What a store does to make room: expired entries go, then the oldest ones. -/
structure MadeRoom (readings : StoreReadings) (before after : CompressionStore) : Prop where
  covers : after.HeapCovers
  room : (after.backend.size : ℤ) < after.maxEntries ∨ after.backend.size = 0
  survivors : ∀ key entry, after.backend.get? key = some entry → before.backend.get? key = some entry
  oldest : ∀ key entry, before.backend.get? key = some entry → after.backend.get? key = none →
    entry.isExpired (readings.expiry key) = true ∨
      ∀ other survivor, after.backend.get? other = some survivor →
        entry.createdAt ≤ survivor.createdAt
  heapLength : after.evictionHeap.length ≤ 2 * before.backend.size - 1
  maxEntries : after.maxEntries = before.maxEntries
  settings : after.defaultTtl = before.defaultTtl ∧ after.enableFeedback = before.enableFeedback

theorem covers_cleanExpired {store : CompressionStore} (hcovers : store.HeapCovers)
    (expiry : Text → ℚ) : (store.cleanExpired expiry).HeapCovers :=
  hcovers.filter fun key entry => !entry.isExpired (expiry key)

variable (store : CompressionStore)

theorem size_cleanExpired_le (expiry : Text → ℚ) :
    (store.cleanExpired expiry).backend.size ≤ store.backend.size :=
  List.length_filter_le _ _

/-- Behind the check for a rebuild less than half of the heap is stale. -/
theorem rebuildIfStale_spec {store : CompressionStore} (hcovers : store.HeapCovers) :
    store.rebuildIfStale.HeapCovers ∧
      store.rebuildIfStale.evictionHeap.length ≤ 2 * store.backend.size - 1 := by
  rw [rebuildIfStale]
  split_ifs with hstale
  · refine ⟨Covers.rebuild store.backend, ?_⟩
    have hlength : store.rebuildHeap.evictionHeap.length = store.backend.size :=
      List.length_map _
    omega
  · refine ⟨hcovers, ?_⟩
    have hlength := hcovers.length
    rcases Nat.eq_zero_or_pos store.evictionHeap.length with hempty | hpos
    · omega
    · have hratio : (store.staleHeapEntries : ℚ) / store.evictionHeap.length < 1 / 2 :=
        not_le.mp fun hle => hstale ⟨hpos, hle⟩
      rw [div_lt_div_iff₀ (by exact_mod_cast hpos) (by norm_num)] at hratio
      have hhalf : store.staleHeapEntries * 2 < 1 * store.evictionHeap.length := by
        exact_mod_cast hratio
      omega

theorem rebuildIfStale_fields :
    store.rebuildIfStale.backend = store.backend ∧
      store.rebuildIfStale.maxEntries = store.maxEntries ∧
      store.rebuildIfStale.defaultTtl = store.defaultTtl ∧
      store.rebuildIfStale.enableFeedback = store.enableFeedback := by
  rw [rebuildIfStale]
  split_ifs
  · exact ⟨rfl, rfl, rfl, rfl⟩
  · exact ⟨rfl, rfl, rfl, rfl⟩

theorem evictIfNeeded_spec {store : CompressionStore} (hcovers : store.HeapCovers)
    (readings : StoreReadings) : MadeRoom readings store (store.evictIfNeeded readings) := by
  obtain ⟨hrebuilt, hshort⟩ :=
    rebuildIfStale_spec (covers_cleanExpired hcovers readings.expiry)
  obtain ⟨hbackend, hmax, httl, hfeedback⟩ :=
    rebuildIfStale_fields (store.cleanExpired readings.expiry)
  have hevicted := evictOldest_spec readings.eviction _ hrebuilt le_rfl
  have hsize := size_cleanExpired_le store readings.expiry
  have hcleaned : ∀ key, (store.cleanExpired readings.expiry).backend.get? key =
      (store.backend.get? key).filter fun entry => !entry.isExpired (readings.expiry key) :=
    fun key => Dict.get?_filter _ _ _
  refine ⟨hevicted.covers, hevicted.room, ?_, ?_, ?_, hevicted.maxEntries.trans hmax,
    hevicted.settings.1.trans httl, hevicted.settings.2.trans hfeedback⟩
  · intro key entry hentry
    have hmiddle := hevicted.survivors key entry hentry
    rw [hbackend, hcleaned] at hmiddle
    exact (Option.filter_eq_some_iff.mp hmiddle).1
  · intro key entry hbefore hafter
    cases hexpired : entry.isExpired (readings.expiry key) with
    | true => exact .inl rfl
    | false =>
        refine .inr (hevicted.oldest key entry ?_ hafter)
        rw [hbackend, hcleaned, hbefore, Option.filter_some, hexpired]
        rfl
  · exact hevicted.heapLength.trans (hshort.trans (by omega))

/-! ## Sections -/

/-- What holds of every store that is reached. -/
structure Kept (store : CompressionStore) : Prop where
  covers : store.HeapCovers
  bounded : (store.backend.size : ℤ) ≤ max store.maxEntries 1
  hash : ∀ key entry, store.backend.get? key = some entry → entry.hash = key
  lower : ∀ key entry, store.backend.get? key = some entry → asciiLower key = key

theorem kept_new (maxEntries defaultTtl : ℤ) (enableFeedback : Bool) :
    (new maxEntries defaultTtl enableFeedback).Kept where
  covers := Covers.empty
  bounded := le_max_of_le_right zero_le_one
  hash _ _ hentry := by cases hentry
  lower _ _ hentry := by cases hentry

/-- Entries stay or go, and their pairs stay. -/
theorem Kept.of_survivors {before after : CompressionStore} (hkept : before.Kept)
    (hcovers : after.HeapCovers) (hsize : after.backend.size ≤ before.backend.size)
    (hmax : after.maxEntries = before.maxEntries)
    (hsurvivors : ∀ key entry, after.backend.get? key = some entry →
      before.backend.get? key = some entry) : after.Kept where
  covers := hcovers
  bounded := by
    rw [hmax]
    exact (Int.ofNat_le.mpr hsize).trans hkept.bounded
  hash key entry hentry := hkept.hash key entry (hsurvivors key entry hentry)
  lower key entry hentry := hkept.lower key entry (hsurvivors key entry hentry)

variable {entry : CompressionEntry}

theorem Kept.dropExpired {store : CompressionStore} (hkept : store.Kept) {hashKey : Text}
    (hentry : store.backend.get? hashKey = some entry) : (store.dropExpired hashKey).Kept := by
  refine hkept.of_survivors (hkept.covers.erase hentry) ?_ rfl fun key found hfound => ?_
  · have hsize := size_erase_of_mem hentry
    show (store.backend.erase hashKey).size ≤ store.backend.size
    omega
  · have herase : (store.backend.erase hashKey).get? key = some found := hfound
    rw [Dict.get?_erase] at herase
    split_ifs at herase
    exact herase

/-- A store of a key that is there replaces the entry. -/
theorem storeLocked_of_some (hold : store.backend.get? entry.hash = some old)
    (readings : StoreReadings) :
    store.storeLocked entry readings =
      { store with
        backend := store.backend.set entry.hash entry
        evictionHeap := heappush store.evictionHeap (toLex (entry.createdAt, entry.hash))
        staleHeapEntries := store.staleHeapEntries + 1 } := by
  rw [storeLocked, hold]

theorem storeLocked_of_none (hnone : store.backend.get? entry.hash = none)
    (readings : StoreReadings) :
    store.storeLocked entry readings =
      { store.evictIfNeeded readings with
        backend := (store.evictIfNeeded readings).backend.set entry.hash entry
        evictionHeap := heappush (store.evictIfNeeded readings).evictionHeap
          (toLex (entry.createdAt, entry.hash)) } := by
  rw [storeLocked, hnone]

theorem get?_set_cases {backend : Dict Text CompressionEntry} {key other : Text}
    {value found : CompressionEntry} (hfound : (backend.set key value).get? other = some found) :
    other = key ∧ found = value ∨ backend.get? other = some found := by
  rw [Dict.get?_set] at hfound
  split_ifs at hfound with hother
  · exact .inl ⟨hother, (Option.some.inj hfound).symm⟩
  · exact .inr hfound

theorem MadeRoom.get?_none {readings : StoreReadings} {before after : CompressionStore}
    (hroom : MadeRoom readings before after) {key : Text}
    (hnone : before.backend.get? key = none) : after.backend.get? key = none := by
  by_contra hsome
  obtain ⟨entry, hentry⟩ := Option.ne_none_iff_exists'.mp hsome
  rw [hroom.survivors key entry hentry] at hnone
  cases hnone

theorem Kept.storeLocked {store : CompressionStore} (hkept : store.Kept)
    (hlower : asciiLower entry.hash = entry.hash) (readings : StoreReadings) :
    (store.storeLocked entry readings).Kept := by
  cases hold : store.backend.get? entry.hash with
  | some old =>
      rw [storeLocked_of_some _ hold]
      refine ⟨hkept.covers.set_old hold, ?_, fun key found hfound => ?_, fun key found hfound => ?_⟩
      · show ((store.backend.set entry.hash entry).size : ℤ) ≤ max store.maxEntries 1
        rw [size_set_of_mem hold]
        exact hkept.bounded
      · rcases get?_set_cases hfound with ⟨rfl, rfl⟩ | hfound
        · rfl
        · exact hkept.hash key found hfound
      · rcases get?_set_cases hfound with ⟨rfl, rfl⟩ | hfound
        · exact hlower
        · exact hkept.lower key found hfound
  | none =>
      have hroom := evictIfNeeded_spec hkept.covers readings
      have hnone := hroom.get?_none hold
      rw [storeLocked_of_none _ hold]
      refine ⟨hroom.covers.set_new hnone, ?_, fun key found hfound => ?_, fun key found hfound => ?_⟩
      · show (((store.evictIfNeeded readings).backend.set entry.hash entry).size : ℤ) ≤
          max (store.evictIfNeeded readings).maxEntries 1
        rw [size_set_of_not_mem hnone, Nat.cast_add, Nat.cast_one]
        rcases hroom.room with hless | hempty
        · exact le_max_of_le_left (Int.add_one_le_of_lt hless)
        · rw [hempty]
          exact le_max_right _ _
      · rcases get?_set_cases hfound with ⟨rfl, rfl⟩ | hfound
        · rfl
        · exact hkept.hash key found (hroom.survivors key found hfound)
      · rcases get?_set_cases hfound with ⟨rfl, rfl⟩ | hfound
        · exact hlower
        · exact hkept.lower key found (hroom.survivors key found hfound)

/-- The cases of a retrieval. -/
theorem retrieveLocked_cases (hashKey : Text) (query : Option Text) (readings : RetrieveReadings) :
    store.backend.get? hashKey = none ∧
        store.retrieveLocked hashKey query readings = (store, none) ∨
      (∃ entry, store.backend.get? hashKey = some entry ∧
          entry.isExpired readings.expiry = true ∧
          store.retrieveLocked hashKey query readings = (store.dropExpired hashKey, none)) ∨
      ∃ entry events pending, store.backend.get? hashKey = some entry ∧
        entry.isExpired readings.expiry = false ∧
        store.retrieveLocked hashKey query readings =
          ({ store with
              backend := store.backend.set hashKey (entry.recordAccess query readings.access)
              retrievalEvents := events
              pendingFeedbackEvents := pending },
            some (entry.recordAccess query readings.access)) := by
  rw [retrieveLocked]
  cases hentry : store.backend.get? hashKey with
  | none => exact .inl ⟨rfl, rfl⟩
  | some entry =>
      cases hexpired : entry.isExpired readings.expiry with
      | true => exact .inr (.inl ⟨entry, rfl, hexpired, by simp [hexpired]⟩)
      | false =>
          dsimp only
          rw [hexpired, if_neg Bool.false_ne_true]
          split_ifs
          · exact .inr (.inr ⟨entry, _, _, rfl, hexpired, rfl⟩)
          · exact .inr (.inr ⟨entry, _, _, rfl, hexpired, rfl⟩)

theorem Kept.retrieveLocked {store : CompressionStore} (hkept : store.Kept) (hashKey : Text)
    (query : Option Text) (readings : RetrieveReadings) :
    (store.retrieveLocked hashKey query readings).1.Kept := by
  rcases retrieveLocked_cases store hashKey query readings with
    ⟨-, hresult⟩ | ⟨entry, hentry, -, hresult⟩ | ⟨entry, events, pending, hentry, -, hresult⟩
  · rw [hresult]
    exact hkept
  · rw [hresult]
    exact hkept.dropExpired hentry
  · rw [hresult]
    refine ⟨hkept.covers.update hentry rfl, ?_, fun key found hfound => ?_, fun key found hfound => ?_⟩
    · show ((store.backend.set hashKey _).size : ℤ) ≤ max store.maxEntries 1
      rw [size_set_of_mem hentry]
      exact hkept.bounded
    · rcases get?_set_cases hfound with ⟨rfl, rfl⟩ | hfound
      · exact hkept.hash key entry hentry
      · exact hkept.hash key found hfound
    · rcases get?_set_cases hfound with ⟨rfl, rfl⟩ | hfound
      · exact hkept.lower key entry hentry
      · exact hkept.lower key found hfound

theorem processIfEnabled_eq : ∃ pending,
    store.processIfEnabled.1 = { store with pendingFeedbackEvents := pending } := by
  rw [processIfEnabled]
  split_ifs
  · exact ⟨_, rfl⟩
  · exact ⟨_, rfl⟩

/-- A queue of events is not looked at. -/
theorem Kept.withEvents {store : CompressionStore} (hkept : store.Kept)
    (pending : List RetrievalEvent) : { store with pendingFeedbackEvents := pending }.Kept :=
  ⟨hkept.covers, hkept.bounded, hkept.hash, hkept.lower⟩

/-- What a look at a hash leaves: an entry is removed if it is one to be dropped. -/
def peeked (store : CompressionStore) (hashKey : Text) (drops : CompressionEntry → Bool) :
    CompressionStore :=
  match store.backend.get? hashKey with
  | none => store
  | some entry => if drops entry then store.dropExpired hashKey else store

theorem peeked_cases (hashKey : Text) (drops : CompressionEntry → Bool) :
    store.peeked hashKey drops = store ∨
      ∃ entry, store.backend.get? hashKey = some entry ∧ drops entry = true ∧
        store.peeked hashKey drops = store.dropExpired hashKey := by
  rw [peeked]
  cases hentry : store.backend.get? hashKey with
  | none => exact .inl rfl
  | some entry =>
      dsimp only
      split_ifs with hdrops
      · exact .inr ⟨entry, rfl, hdrops, rfl⟩
      · exact .inl rfl

theorem getMetadata_fst (hashKey : Text) (now : ℚ) :
    (store.getMetadata hashKey now).1 = store.peeked hashKey fun entry => entry.isExpired now := by
  rw [getMetadata, peeked]
  cases store.backend.get? hashKey with
  | none => rfl
  | some entry =>
      dsimp only
      split_ifs
      · rfl
      · rfl

theorem exists_fst (hashKey : Text) (cleanExpired : Bool) (now : ℚ) :
    (store.exists hashKey cleanExpired now).1 =
      store.peeked hashKey fun entry => entry.isExpired now && cleanExpired := by
  rw [CompressionStore.exists, peeked]
  cases store.backend.get? hashKey with
  | none => rfl
  | some entry =>
      dsimp only
      cases entry.isExpired now with
      | false => rfl
      | true => rfl

theorem getEntryStatus_fst (hashKey : Text) (cleanExpired : Bool) (now : ℚ) :
    (store.getEntryStatus hashKey cleanExpired now).1 =
      store.peeked hashKey fun entry => entry.isExpired now && cleanExpired := by
  rw [getEntryStatus, peeked]
  cases store.backend.get? hashKey with
  | none => rfl
  | some entry => rfl

/-! ## Keys -/

theorem asciiLower_asciiLower (hash : Text) : asciiLower (asciiLower hash) = asciiLower hash := by
  rw [asciiLower, asciiLower, List.map_map]
  refine List.map_congr_left fun char _ => ?_
  rw [Function.comp_apply]
  split_ifs with hupper hagain
  · exact absurd hagain.2 (by have := hupper.1; simp only [Fin.le_def, Fin.val_add] at *; omega)
  · rfl
  · rfl

theorem asciiLower_hexText (width value : ℕ) : asciiLower (hexText width value) = hexText width value := by
  rw [asciiLower, hexText, List.map_map]
  refine List.map_congr_left fun place _ => ?_
  have hall : ∀ digit < 16, ¬((0x41 : CodePoint) ≤ codePoint (Nat.digitChar digit) ∧
      codePoint (Nat.digitChar digit) ≤ 0x5A) := by decide
  exact if_neg (hall _ (Nat.mod_lt _ (by decide)))

section

variable (digest : Text → Option (Vector Byte 32))

theorem asciiLower_contentHash {content hash : Text}
    (hhash : contentHash digest content = some hash) :
    asciiLower hash = hash := by
  obtain ⟨bytes, -, rfl⟩ := Option.map_eq_some_iff.mp hhash
  rw [asciiLower, List.map_take, List.map_flatMap]
  refine congrArg (List.take contentHashChars) (List.flatMap_congr fun byte _ => ?_)
  exact asciiLower_hexText 2 byte.toNat

/-- Every key is in lower case. -/
theorem asciiLower_keyOf {request : StoreRequest} {key : Text}
    (hkey : keyOf digest request = .ok key) : asciiLower key = key := by
  rw [keyOf] at hkey
  split at hkey
  · split_ifs at hkey
    cases hkey
    exact asciiLower_asciiLower _
  · split at hkey
    · cases hkey
      exact asciiLower_contentHash digest ‹_›
    · cases hkey

/-! ## Calls -/

inductive Call where
  | store (request : StoreRequest) (readings : StoreReadings)
  | retrieve (hashKey : Text) (query : Option Text) (readings : RetrieveReadings)
  | getMetadata (hashKey : Text) (now : ℚ)
  | «exists» (hashKey : Text) (cleanExpired : Bool) (now : ℚ)
  | getEntryStatus (hashKey : Text) (cleanExpired : Bool) (now : ℚ)
  | processPendingFeedback
  | clear

/-- The store behind a call. -/
def after (store : CompressionStore) : Call → CompressionStore
  | .store request readings => (store.store digest request readings).1
  | .retrieve hashKey query readings => (store.retrieve hashKey query readings).1
  | .getMetadata hashKey now => (store.getMetadata hashKey now).1
  | .exists hashKey cleanExpired now => (store.exists hashKey cleanExpired now).1
  | .getEntryStatus hashKey cleanExpired now => (store.getEntryStatus hashKey cleanExpired now).1
  | .processPendingFeedback => store.processPendingFeedback.1
  | .clear => store.clear

def run (store : CompressionStore) (calls : List Call) : CompressionStore :=
  calls.foldl (after digest) store

/-- A content is stored under a key that is there. -/
def isRestore (store : CompressionStore) : Call → Bool
  | .store request _ =>
      match keyOf digest request with
      | .ok key => (store.backend.get? key).isSome
      | .error _ => false
  | _ => false

/-- How often that happens in a run. -/
def restores (store : CompressionStore) : List Call → ℕ
  | [] => 0
  | call :: calls => (isRestore digest store call).toNat + restores (after digest store call) calls

variable (store : CompressionStore)

/-- The cases of a call of `store`. -/
theorem store_cases (request : StoreRequest) (readings : StoreReadings) :
    (∃ error, keyOf digest request = .error error ∧
        store.store digest request readings = (store, .error error, [])) ∨
      ∃ key pending, keyOf digest request = .ok key ∧
        (store.store digest request readings).2.1 = .ok key ∧
        (store.store digest request readings).1 =
          { store with pendingFeedbackEvents := pending }.storeLocked
            (store.entryOf request key readings.createdAt) readings := by
  rw [CompressionStore.store]
  cases hkey : keyOf digest request with
  | error error => exact .inl ⟨error, rfl, rfl⟩
  | ok key =>
      obtain ⟨pending, hprocessed⟩ := processIfEnabled_eq store
      exact .inr ⟨key, pending, rfl, rfl, by rw [← hprocessed]⟩

/-- Behind a retrieval only the queue may change once more. -/
theorem retrieve_eq (hashKey : Text) (query : Option Text) (readings : RetrieveReadings) :
    (store.retrieve hashKey query readings).2.1 = (store.retrieveLocked hashKey query readings).2 ∧
      ∃ pending, (store.retrieve hashKey query readings).1 =
        { (store.retrieveLocked hashKey query readings).1 with
          pendingFeedbackEvents := pending } := by
  rw [retrieve]
  cases hresult : (store.retrieveLocked hashKey query readings).2 with
  | none => exact ⟨rfl, _, rfl⟩
  | some entry => exact ⟨rfl, processIfEnabled_eq _⟩

/-- What a call can do to the store: nothing but to the events, drop an expired entry, count an
access, store an entry, or clear everything. -/
theorem after_cases (call : Call) :
    (∃ pending, after digest store call = { store with pendingFeedbackEvents := pending }) ∨
      (∃ hashKey entry, store.backend.get? hashKey = some entry ∧
        after digest store call = store.dropExpired hashKey) ∨
      (∃ hashKey query readings, after digest store call =
        { (store.retrieveLocked hashKey query readings).1 with
          pendingFeedbackEvents := (after digest store call).pendingFeedbackEvents }) ∨
      (∃ request readings key pending, call = .store request readings ∧
        keyOf digest request = .ok key ∧
        after digest store call = { store with pendingFeedbackEvents := pending }.storeLocked
          (store.entryOf request key readings.createdAt) readings) ∨
      after digest store call = store.clear := by
  have hpeeked : ∀ hashKey drops,
      (∃ pending, store.peeked hashKey drops = { store with pendingFeedbackEvents := pending }) ∨
        ∃ hashKey' entry, store.backend.get? hashKey' = some entry ∧
          store.peeked hashKey drops = store.dropExpired hashKey' := by
    intro hashKey drops
    rcases peeked_cases store hashKey drops with hresult | ⟨entry, hentry, -, hresult⟩
    · exact .inl ⟨_, hresult⟩
    · exact .inr ⟨hashKey, entry, hentry, hresult⟩
  cases call with
  | store request readings =>
      rcases store_cases digest store request readings with
        ⟨error, -, hresult⟩ | ⟨key, pending, hkey, -, hresult⟩
      · exact .inl ⟨store.pendingFeedbackEvents, congrArg Prod.fst hresult⟩
      · exact .inr (.inr (.inr (.inl ⟨request, readings, key, pending, rfl, hkey, hresult⟩)))
  | retrieve hashKey query readings =>
      obtain ⟨-, pending, hresult⟩ := retrieve_eq store hashKey query readings
      refine .inr (.inr (.inl ⟨hashKey, query, readings, ?_⟩))
      rw [after, hresult]
  | getMetadata hashKey now =>
      rw [after, getMetadata_fst]
      exact (hpeeked hashKey _).imp_right .inl
  | «exists» hashKey cleanExpired now =>
      rw [after, exists_fst]
      exact (hpeeked hashKey _).imp_right .inl
  | getEntryStatus hashKey cleanExpired now =>
      rw [after, getEntryStatus_fst]
      exact (hpeeked hashKey _).imp_right .inl
  | processPendingFeedback => exact .inl ⟨[], rfl⟩
  | clear => exact .inr (.inr (.inr (.inr rfl)))

theorem kept_clear : store.clear.Kept where
  covers := Covers.empty
  bounded := le_max_of_le_right zero_le_one
  hash _ _ hentry := by cases hentry
  lower _ _ hentry := by cases hentry

theorem Kept.after {store : CompressionStore} (hkept : store.Kept) (call : Call) :
    (after digest store call).Kept := by
  rcases after_cases digest store call with ⟨pending, hafter⟩ | ⟨hashKey, entry, hentry, hafter⟩ |
    ⟨hashKey, query, readings, hafter⟩ | ⟨request, readings, key, pending, -, hkey, hafter⟩ | hafter
  · rw [hafter]
    exact hkept.withEvents pending
  · rw [hafter]
    exact hkept.dropExpired hentry
  · rw [hafter]
    exact (hkept.retrieveLocked hashKey query readings).withEvents _
  · rw [hafter]
    exact (hkept.withEvents pending).storeLocked (asciiLower_keyOf digest hkey) readings
  · rw [hafter]
    exact kept_clear store

theorem Kept.run {store : CompressionStore} (hkept : store.Kept) (calls : List Call) :
    (run digest store calls).Kept := by
  induction calls generalizing store with
  | nil => exact hkept
  | cons call calls ih => exact ih (hkept.after digest call)

theorem maxEntries_storeLocked {store : CompressionStore} (hkept : store.Kept)
    (entry : CompressionEntry) (readings : StoreReadings) :
    (store.storeLocked entry readings).maxEntries = store.maxEntries := by
  cases hold : store.backend.get? entry.hash with
  | some old => rw [storeLocked_of_some _ hold]
  | none =>
      rw [storeLocked_of_none _ hold]
      exact (evictIfNeeded_spec hkept.covers readings).maxEntries

theorem retrieveLocked_fields (hashKey : Text) (query : Option Text) (readings : RetrieveReadings) :
    (store.retrieveLocked hashKey query readings).1.maxEntries = store.maxEntries ∧
      (store.retrieveLocked hashKey query readings).1.evictionHeap = store.evictionHeap := by
  rcases retrieveLocked_cases store hashKey query readings with
    ⟨-, hresult⟩ | ⟨entry, -, -, hresult⟩ | ⟨entry, events, pending, -, -, hresult⟩
  all_goals
    rw [hresult]
    exact ⟨rfl, rfl⟩

theorem maxEntries_after {store : CompressionStore} (hkept : store.Kept) (call : Call) :
    (after digest store call).maxEntries = store.maxEntries := by
  rcases after_cases digest store call with ⟨pending, hafter⟩ | ⟨hashKey, entry, hentry, hafter⟩ |
    ⟨hashKey, query, readings, hafter⟩ | ⟨request, readings, key, pending, -, hkey, hafter⟩ | hafter
  · rw [hafter]
  · rw [hafter]
    rfl
  · rw [hafter]
    exact (retrieveLocked_fields store hashKey query readings).1
  · rw [hafter]
    exact maxEntries_storeLocked (hkept.withEvents pending) _ readings
  · rw [hafter]
    rfl

/-- A call makes the heap longer only if a content is stored again; for a new key the heap is
rebuilt if half of it is stale. -/
theorem heapLength_after {store : CompressionStore} (hkept : store.Kept) (call : Call) :
    (after digest store call).evictionHeap.length ≤
        store.evictionHeap.length + (isRestore digest store call).toNat ∨
      ((after digest store call).evictionHeap.length : ℤ) ≤ 2 * max store.maxEntries 1 := by
  rcases after_cases digest store call with ⟨pending, hafter⟩ | ⟨hashKey, entry, hentry, hafter⟩ |
    ⟨hashKey, query, readings, hafter⟩ | ⟨request, readings, key, pending, rfl, hkey, hafter⟩ | hafter
  · rw [hafter]
    exact .inl (Nat.le_add_right _ _)
  · rw [hafter]
    exact .inl (Nat.le_add_right _ _)
  · rw [hafter, (retrieveLocked_fields store hashKey query readings).2]
    exact .inl (Nat.le_add_right _ _)
  · rw [hafter]
    have hevents := hkept.withEvents pending
    cases hold : store.backend.get? key with
    | some old =>
        have hrestore : isRestore digest store (.store request readings) = true := by
          rw [isRestore, hkey]
          simp [hold]
        rw [storeLocked_of_some { store with pendingFeedbackEvents := pending } hold,
          hrestore]
        exact .inl le_rfl
    | none =>
        have hroom := evictIfNeeded_spec hevents.covers readings
        have hheap := hroom.heapLength
        have hsize := hkept.bounded
        have hone := le_max_right store.maxEntries 1
        rw [storeLocked_of_none { store with pendingFeedbackEvents := pending } hold]
        refine .inr ?_
        dsimp only [heappush] at hheap ⊢
        rw [List.length_cons]
        omega
  · rw [hafter]
    exact .inl (Nat.zero_le _)

/-- The heap holds twice the allowed entries, and a pair for every content stored again. -/
theorem heapLength_run {store : CompressionStore} (hkept : store.Kept) (calls : List Call)
    {extra : ℕ} (hheap : (store.evictionHeap.length : ℤ) ≤ 2 * max store.maxEntries 1 + extra) :
    ((run digest store calls).evictionHeap.length : ℤ) ≤
      2 * max store.maxEntries 1 + extra + restores digest store calls := by
  induction calls generalizing store extra with
  | nil => exact hheap.trans (le_add_of_nonneg_right (Nat.cast_nonneg _))
  | cons call calls ih =>
      have hmax := maxEntries_after digest hkept call
      have hnext : ((after digest store call).evictionHeap.length : ℤ) ≤
          2 * max (after digest store call).maxEntries 1 +
            ((extra + (isRestore digest store call).toNat : ℕ) : ℤ) := by
        rw [hmax]
        rcases heapLength_after digest hkept call with hlonger | hshort
        · omega
        · omega
      have hrest := ih (hkept.after digest call) hnext
      rw [hmax] at hrest
      rw [restores]
      refine hrest.trans (le_of_eq ?_)
      push_cast
      ring

theorem maxEntries_run {store : CompressionStore} (hkept : store.Kept) (calls : List Call) :
    (run digest store calls).maxEntries = store.maxEntries := by
  induction calls generalizing store with
  | nil => rfl
  | cons call calls ih => exact (ih (hkept.after digest call)).trans (maxEntries_after digest hkept call)

/-! ## Storing and retrieving -/

/-- What storing under a key does to the entries of the other keys: nothing if the key is there;
else some go, expired ones and those that are no younger than any that stays. -/
structure StoreEffect (before after : Dict Text CompressionEntry) (key : Text)
    (readings : StoreReadings) : Prop where
  replaced : ∀ old, before.get? key = some old →
    ∀ other, other ≠ key → after.get? other = before.get? other
  survivors : ∀ other entry, other ≠ key → after.get? other = some entry →
    before.get? other = some entry
  oldest : ∀ gone entry, before.get? gone = some entry → after.get? gone = none →
    entry.isExpired (readings.expiry gone) = true ∨
      ∀ other survivor, other ≠ key → after.get? other = some survivor →
        entry.createdAt ≤ survivor.createdAt

theorem storeEffect_storeLocked {store : CompressionStore} (hkept : store.Kept)
    (entry : CompressionEntry) (readings : StoreReadings) :
    StoreEffect store.backend (store.storeLocked entry readings).backend entry.hash readings := by
  cases hold : store.backend.get? entry.hash with
  | some old =>
      rw [storeLocked_of_some _ hold]
      have hother : ∀ other, other ≠ entry.hash →
          (store.backend.set entry.hash entry).get? other = store.backend.get? other :=
        fun other hne => by rw [Dict.get?_set, if_neg hne]
      refine ⟨fun _ _ => hother, fun other found hne hfound => ?_, fun gone found hbefore hafter => ?_⟩
      · rw [← hother other hne]
        exact hfound
      · have hgone : (store.backend.set entry.hash entry).get? gone = none := hafter
        rw [Dict.get?_set] at hgone
        split_ifs at hgone
        rw [hbefore] at hgone
        cases hgone
  | none =>
      have hroom := evictIfNeeded_spec hkept.covers readings
      rw [storeLocked_of_none _ hold]
      have hother : ∀ other, other ≠ entry.hash →
          ((store.evictIfNeeded readings).backend.set entry.hash entry).get? other =
            (store.evictIfNeeded readings).backend.get? other :=
        fun other hne => by rw [Dict.get?_set, if_neg hne]
      refine ⟨fun old hsome => ?_, fun other found hne hfound => ?_,
        fun gone found hbefore hafter => ?_⟩
      · rw [hold] at hsome
        cases hsome
      · refine hroom.survivors other found ?_
        rw [← hother other hne]
        exact hfound
      · have hgone : ((store.evictIfNeeded readings).backend.set entry.hash entry).get? gone =
            none := hafter
        rw [Dict.get?_set] at hgone
        split_ifs at hgone
        refine (hroom.oldest gone found hbefore hgone).imp_right fun holdest other survivor hne
          hsurvivor => holdest other survivor ?_
        rw [← hother other hne]
        exact hsurvivor

theorem get?_storeLocked (entry : CompressionEntry) (readings : StoreReadings) :
    (store.storeLocked entry readings).backend.get? entry.hash = some entry := by
  rw [storeLocked, Dict.get?_set, if_pos rfl]

/-- What is under a key and has not expired is retrieved. -/
theorem retrieve_of_get? {store : CompressionStore} {hashKey : Text} {entry : CompressionEntry}
    (hentry : store.backend.get? hashKey = some entry) (query : Option Text)
    (readings : RetrieveReadings) (hfresh : entry.isExpired readings.expiry = false) :
    (store.retrieve hashKey query readings).2.1 =
      some (entry.recordAccess query readings.access) := by
  rw [(retrieve_eq store hashKey query readings).1]
  rcases retrieveLocked_cases store hashKey query readings with
    ⟨hnone, -⟩ | ⟨found, hfound, hexpired, -⟩ | ⟨found, events, pending, hfound, -, hresult⟩
  · rw [hentry] at hnone
    cases hnone
  · rw [hentry, Option.some.injEq] at hfound
    rw [← hfound, hfresh] at hexpired
    cases hexpired
  · rw [hentry, Option.some.injEq] at hfound
    rw [hresult, ← hfound]

theorem retrieve_of_none {store : CompressionStore} {hashKey : Text}
    (hnone : store.backend.get? hashKey = none) (query : Option Text)
    (readings : RetrieveReadings) : (store.retrieve hashKey query readings).2.1 = none := by
  rw [(retrieve_eq store hashKey query readings).1, retrieveLocked, hnone]

/-- A store is a bounded map with expiry: in every run the heap covers the entries, the stale pairs
are counted, the entries are within the limit and make room oldest first.  The heap is within twice
the limit but for contents stored again, and a content is found under the hash given for it
exactly if that hash is in lower case. -/
theorem run_refines (maxEntries defaultTtl : ℤ) (enableFeedback : Bool) (calls : List Call) :
    let store := run digest (new maxEntries defaultTtl enableFeedback) calls
    (∀ key entry, store.backend.get? key = some entry →
      toLex (entry.createdAt, key) ∈ store.evictionHeap) ∧
    store.evictionHeap.length = store.backend.size + store.staleHeapEntries ∧
    (store.evictionHeap.length : ℤ) ≤ 2 * max maxEntries 1 +
      restores digest (new maxEntries defaultTtl enableFeedback) calls ∧
    (store.backend.size : ℤ) ≤ max maxEntries 1 ∧
    ∀ (request : StoreRequest) (readings : StoreReadings) (key : Text),
      keyOf digest request = .ok key →
      (store.store digest request readings).2.1 = .ok key ∧
      StoreEffect store.backend (store.store digest request readings).1.backend key readings ∧
      ∀ (query : Option Text) (retrieval : RetrieveReadings),
        retrieval.expiry - readings.createdAt ≤ request.ttl.getD store.defaultTtl →
        (((store.store digest request readings).1.retrieve key query retrieval).2.1.map
          CompressionEntry.originalContent = some request.original) ∧
        ∀ hash, request.explicitHash = some hash →
          (((store.store digest request readings).1.retrieve hash query retrieval).2.1.map
              CompressionEntry.originalContent = some request.original ↔
            asciiLower hash = hash) := by
  intro store
  have hstart := kept_new maxEntries defaultTtl enableFeedback
  have hkept : store.Kept := hstart.run digest calls
  have hmax : store.maxEntries = maxEntries := maxEntries_run digest hstart calls
  have hnew : ((new maxEntries defaultTtl enableFeedback).evictionHeap.length : ℤ) ≤
      2 * max maxEntries 1 + ((0 : ℕ) : ℤ) := by
    have hone := le_max_right maxEntries 1
    show ((0 : ℕ) : ℤ) ≤ _
    omega
  refine ⟨hkept.covers.mem, hkept.covers.length, ?_, hmax ▸ hkept.bounded,
    fun request readings key hkey => ?_⟩
  · have hheap := heapLength_run digest hstart calls hnew
    rwa [Nat.cast_zero, add_zero] at hheap
  · rcases store_cases digest store request readings with
      ⟨error, herror, -⟩ | ⟨found, pending, hfound, hreturned, hresult⟩
    · rw [hkey] at herror
      cases herror
    · rw [hkey, Except.ok.injEq] at hfound
      subst hfound
      have hentry : (store.store digest request readings).1.backend.get? key =
          some (store.entryOf request key readings.createdAt) := by
        rw [hresult]
        exact get?_storeLocked _ (store.entryOf request key readings.createdAt) readings
      have hafter : (store.store digest request readings).1.Kept :=
        hkept.after digest (.store request readings)
      refine ⟨hreturned, ?_, fun query retrieval hfresh => ?_⟩
      · rw [hresult]
        exact storeEffect_storeLocked (hkept.withEvents pending)
          (store.entryOf request key readings.createdAt) readings
      · have hretrieved := retrieve_of_get? hentry query retrieval
          (decide_eq_false (not_lt.mpr hfresh))
        refine ⟨by rw [hretrieved]; rfl, fun hash hhash => ⟨fun horiginal => ?_, fun hlower => ?_⟩⟩
        · by_contra hupper
          have hnone : (store.store digest request readings).1.backend.get? hash = none := by
            by_contra hsome
            obtain ⟨entry, hthere⟩ := Option.ne_none_iff_exists'.mp hsome
            exact hupper (hafter.lower hash entry hthere)
          rw [retrieve_of_none hnone] at horiginal
          cases horiginal
        · have hsame : key = hash := by
            rw [keyOf, hhash] at hkey
            dsimp only at hkey
            split_ifs at hkey
            cases hkey
            exact hlower
          rw [← hsame, hretrieved]
          rfl

end

/-! ## Runs on fixed requests -/

/-- A content of one letter under a hash of the caller. -/
def requestUnder (hash : String) : StoreRequest where
  original := text "x"
  compressed := []
  originalTokens := 0
  compressedTokens := 0
  originalItemCount := 0
  compressedItemCount := 0
  toolName := none
  toolCallId := none
  queryContext := none
  toolSignatureHash := none
  compressionStrategy := none
  ttl := none
  explicitHash := some (text hash)

def atZero : StoreReadings := ⟨0, fun _ => 0, fun _ => 0⟩

theorem heap_restore {store : CompressionStore} (hthere : (store.backend.get? (text "ab")).isSome) :
    ((after (fun _ => none) store (.store (requestUnder "ab") atZero)).backend.get?
      (text "ab")).isSome ∧
    (after (fun _ => none) store (.store (requestUnder "ab") atZero)).evictionHeap.length =
      store.evictionHeap.length + 1 := by
  obtain ⟨old, hold⟩ := Option.isSome_iff_exists.mp hthere
  rcases store_cases (fun _ => none) store (requestUnder "ab") atZero with
    ⟨error, herror, -⟩ | ⟨key, pending, hkey, -, hresult⟩
  · cases (show keyOf (fun _ => none) (requestUnder "ab") = .ok (text "ab") by rfl).symm.trans herror
  · cases (show keyOf (fun _ => none) (requestUnder "ab") = .ok (text "ab") by rfl).symm.trans hkey
    rw [after, hresult, storeLocked_of_some { store with pendingFeedbackEvents := pending }
      hold]
    refine ⟨?_, rfl⟩
    show ((Dict.set _ (text "ab") _).get? (text "ab")).isSome
    rw [Dict.get?_set, if_pos rfl]
    rfl

theorem heapLength_restores (times : ℕ) {store : CompressionStore}
    (hthere : (store.backend.get? (text "ab")).isSome) :
    (run (fun _ => none) store
      (List.replicate times (.store (requestUnder "ab") atZero))).evictionHeap.length =
        store.evictionHeap.length + times := by
  induction times generalizing store with
  | zero => rfl
  | succ times ih =>
      obtain ⟨hstill, hlonger⟩ := heap_restore hthere
      rw [List.replicate_succ, run, List.foldl_cons]
      exact (ih hstill).trans (by rw [hlonger]; omega)

/-- A content that is stored again and again makes the heap of a store for one entry as long as
one likes, and one under a hash in upper case is not found under it. -/
theorem heap_unbounded :
    (∀ bound : ℤ → ℕ, ∃ calls,
      bound 1 < (run (fun _ => none) (new 1 1800 true) calls).evictionHeap.length) ∧
    ((((new 1 1800 true).store (fun _ => none) (requestUnder "AB") atZero).1.retrieve (text "AB")
      none ⟨0, 0, 0⟩).2.1 = none) := by
  refine ⟨fun bound => ?_, by decide +kernel⟩
  refine ⟨.store (requestUnder "ab") atZero ::
    List.replicate (bound 1) (.store (requestUnder "ab") atZero), ?_⟩
  have hfirst : ((after (fun _ => none) (new 1 1800 true)
      (.store (requestUnder "ab") atZero)).backend.get? (text "ab")).isSome := by
    decide +kernel
  have hone : (after (fun _ => none) (new 1 1800 true)
      (.store (requestUnder "ab") atZero)).evictionHeap.length = 1 := by
    decide +kernel
  have hlength := heapLength_restores (bound 1) hfirst
  rw [run, List.foldl_cons]
  refine lt_of_lt_of_eq ?_ hlength.symm
  omega

end CompressionStore

end Legroom.Cache
