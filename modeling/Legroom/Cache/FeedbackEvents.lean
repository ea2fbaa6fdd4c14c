import Legroom.Cache.CompressionStoreRuns

/-!
# Feedback events

The sections of all calls under the lock follow one another in some order.  An event is
queued in one section and joined in a later one with whatever is under its hash then.
While the entry of a queued event stays, the consumers hear of the event once, with the
data of the entry; an evicted entry is gone before its event is processed.
-/

namespace Legroom.Cache

open Python

namespace CompressionStore

/-! ## The consumers -/

inductive ConsumerCall (Items : Type*) where
  | feedback (event : RetrievalEvent) (strategy : Option Text)
  | telemetry (toolSignatureHash retrievalType : Text) (queryFields : Option (List Text))
  | toin (toolSignatureHash retrievalType : Text) (query : Option Text)
      (queryFields : Option (List Text)) (strategy : Option Text) (retrievedItems : Option Items)

section

-- The fields that a query names, and the items of a compressed content.
variable {Items : Type*} (fieldsOf : Text → List Text) (itemsOf : Text → Option Items)

def queryFields (query : Option Text) : Option (List Text) :=
  (query.filter fun query => !query.isEmpty).map fieldsOf

def retrievedItems (compressedContent : Option Text) : Option Items :=
  (compressedContent.filter fun content => !content.isEmpty).bind itemsOf

/-- The loop of `process_pending_feedback`. -/
def consumerCalls (data : EventData) : List (ConsumerCall Items) :=
  .feedback data.event data.compressionStrategy ::
    match data.toolSignatureHash with
    | none => []
    | some signature =>
        [.telemetry signature data.event.retrievalType (queryFields fieldsOf data.event.query),
          .toin signature data.event.retrievalType data.event.query
            (queryFields fieldsOf data.event.query) data.compressionStrategy
            (retrievedItems itemsOf data.compressedContent)]

end

/-- A call with the retrieved items left out. -/
def ConsumerCall.withoutItems {Items : Type*} : ConsumerCall Items → ConsumerCall Empty
  | .feedback event strategy => .feedback event strategy
  | .telemetry signature retrievalType queryFields => .telemetry signature retrievalType queryFields
  | .toin signature retrievalType query queryFields strategy _ =>
      .toin signature retrievalType query queryFields strategy none

/-- What an event is attributed to. -/
def attribution (data : EventData) : RetrievalEvent × Option Text × Option Text :=
  (data.event, data.toolSignatureHash, data.compressionStrategy)

/-- An event with the data of the entry it belongs to. -/
def ownData (owed : RetrievalEvent × CompressionEntry) : EventData :=
  ⟨owed.1, owed.2.toolName, owed.2.toolSignatureHash, owed.2.compressionStrategy,
    some owed.2.compressedContent⟩

/-! ## Sections -/

inductive Section where
  | processPendingFeedback
  | store (entry : CompressionEntry) (readings : StoreReadings)
  | retrieve (hashKey : Text) (query : Option Text) (readings : RetrieveReadings)
  | getMetadata (hashKey : Text) (now : ℚ)
  | «exists» (hashKey : Text) (cleanExpired : Bool) (now : ℚ)
  | getEntryStatus (hashKey : Text) (cleanExpired : Bool) (now : ℚ)
  | clear

def afterSection (store : CompressionStore) : Section → CompressionStore
  | .processPendingFeedback => store.processPendingFeedback.1
  | .store entry readings => store.storeLocked entry readings
  | .retrieve hashKey query readings => (store.retrieveLocked hashKey query readings).1
  | .getMetadata hashKey now => (store.getMetadata hashKey now).1
  | .exists hashKey cleanExpired now => (store.exists hashKey cleanExpired now).1
  | .getEntryStatus hashKey cleanExpired now => (store.getEntryStatus hashKey cleanExpired now).1
  | .clear => store.clear

/-- What a section hands to the consumers. -/
def handedOut (store : CompressionStore) : Section → List EventData
  | .processPendingFeedback => store.processPendingFeedback.2
  | _ => []

/-- The entry of a popped pair, if it is not stale. -/
def poppedEntry (store : CompressionStore) (item : ℚ ×ₗ Text) : Option CompressionEntry :=
  (store.backend.get? (ofLex item).2).filter fun entry => entry.createdAt = (ofLex item).1

/-- The entries that the eviction loop removes, each with its key. -/
def evictedEntries (eviction : Text → ℚ) : ℕ → CompressionStore → List (Text × CompressionEntry)
  | 0, _ => []
  | fuel + 1, store =>
      if store.maxEntries ≤ store.backend.size then
        match heappop store.evictionHeap with
        | none => []
        | some (item, rest) =>
            ((store.poppedEntry item).map fun entry => ((ofLex item).2, entry)).toList ++
              evictedEntries eviction fuel
                (evictPopped { store with evictionHeap := rest } eviction item)
      else []

/-- The entries that a store removes to make room. -/
def evictions (store : CompressionStore) (entry : CompressionEntry) (readings : StoreReadings) :
    List (Text × CompressionEntry) :=
  match store.backend.get? entry.hash with
  | none =>
      let store := (store.cleanExpired readings.expiry).rebuildIfStale
      evictedEntries readings.eviction store.evictionHeap.length store
  | some _ => []

/-- An entry that was never retrieved and has a signature and a strategy. -/
def isSuccess (entry : CompressionEntry) : Bool :=
  entry.retrievalCount == 0 && entry.toolSignatureHash.isSome && entry.compressionStrategy.isSome

/-- The events of evicted entries. -/
def successes (eviction : Text → ℚ) (evicted : List (Text × CompressionEntry)) :
    List (RetrievalEvent × CompressionEntry) :=
  (evicted.filter fun evicted => isSuccess evicted.2).map
    fun evicted => (successEvent evicted.2 (eviction evicted.1), evicted.2)

/-- The events that a section owes, each with the entry it belongs to. -/
def owed (store : CompressionStore) : Section → List (RetrievalEvent × CompressionEntry)
  | .store entry readings => successes readings.eviction (store.evictions entry readings)
  | .retrieve hashKey query readings =>
      match store.backend.get? hashKey with
      | some entry =>
          if entry.isExpired readings.expiry then []
          else [(retrievalEvent hashKey query entry readings.log, entry)]
      | none => []
  | _ => []

/-! ## Runs -/

/-- What a run of sections leaves: the store, what the consumers got, and what is owed. -/
structure FeedbackRun where
  store : CompressionStore
  handed : List EventData
  owed : List (RetrievalEvent × CompressionEntry)

def FeedbackRun.step (run : FeedbackRun) (next : Section) : FeedbackRun where
  store := run.store.afterSection next
  handed := run.handed ++ run.store.handedOut next
  owed := run.owed ++ run.store.owed next

def feedbackRun (maxEntries defaultTtl : ℤ) (sections : List Section) : FeedbackRun :=
  sections.foldl FeedbackRun.step ⟨new maxEntries defaultTtl true, [], []⟩

/-- A section takes the entry under a hash away, or puts one with another signature or strategy
in its place. -/
def Disturbs (store : CompressionStore) (hash : Text) (entry : CompressionEntry) : Section → Prop
  | .processPendingFeedback => False
  | .store new readings =>
      if new.hash = hash then
        new.toolSignatureHash ≠ entry.toolSignatureHash ∨
          new.compressionStrategy ≠ entry.compressionStrategy
      else
        store.backend.get? new.hash = none ∧
          (entry.isExpired (readings.expiry hash) = true ∨
            hash ∈ (store.evictions new readings).map Prod.fst)
  | .retrieve hashKey _ readings => hashKey = hash ∧ entry.isExpired readings.expiry = true
  | .getMetadata hashKey now => hashKey = hash ∧ entry.isExpired now = true
  | .exists hashKey cleanExpired now =>
      hashKey = hash ∧ cleanExpired = true ∧ entry.isExpired now = true
  | .getEntryStatus hashKey cleanExpired now =>
      hashKey = hash ∧ cleanExpired = true ∧ entry.isExpired now = true
  | .clear => True

/-- A section disturbs no entry of a queued event, and a store evicts no entry that was never
retrieved and has a signature and a strategy. -/
structure Undisturbed (store : CompressionStore) (next : Section) : Prop where
  noSuccess : ∀ entry readings, next = .store entry readings →
    ∀ evicted ∈ store.evictions entry readings, isSuccess evicted.2 = false
  stays : ∀ event ∈ store.pendingFeedbackEvents, ∀ entry,
    store.backend.get? event.hash = some entry → ¬store.Disturbs event.hash entry next

/-- Every section of a run finds the store undisturbed. -/
def UndisturbedRun : CompressionStore → List Section → Prop
  | _, [] => True
  | store, next :: sections =>
      Undisturbed store next ∧ UndisturbedRun (store.afterSection next) sections

/-! ## What eviction queues -/

section

variable (store : CompressionStore) (eviction : Text → ℚ)

theorem successes_append (evicted others : List (Text × CompressionEntry)) :
    successes eviction (evicted ++ others) =
      successes eviction evicted ++ successes eviction others := by
  rw [successes, List.filter_append, List.map_append]
  rfl

variable {item : ℚ ×ₗ Text}

theorem evictPopped_of_none (hnone : store.poppedEntry item = none) :
    evictPopped store eviction item =
      { store with staleHeapEntries := store.staleHeapEntries - 1 } := by
  rw [poppedEntry] at hnone
  rw [evictPopped]
  cases hentry : store.backend.get? (ofLex item).2 with
  | none => rfl
  | some entry =>
      rw [hentry, Option.filter_some] at hnone
      by_cases hcreated : entry.createdAt = (ofLex item).1
      · simp [hcreated] at hnone
      · exact if_neg hcreated

variable {entry : CompressionEntry}

/-- A popped entry is removed, and its event is queued if it was a success. -/
theorem evictPopped_of_some (hfeedback : store.enableFeedback = true)
    (hentry : store.poppedEntry item = some entry) :
    evictPopped store eviction item =
      { store with
        backend := store.backend.erase (ofLex item).2
        pendingFeedbackEvents := store.pendingFeedbackEvents ++
          (successes eviction [((ofLex item).2, entry)]).map Prod.fst } := by
  obtain ⟨hfound, hcreated⟩ := Option.filter_eq_some_iff.mp hentry
  rw [evictPopped, hfound]
  dsimp only
  rw [if_pos (of_decide_eq_true hcreated), recordEvictionSuccess]
  cases hcount : entry.retrievalCount == 0 with
  | false => simp [successes, isSuccess, hcount]
  | true =>
      cases hboth : entry.toolSignatureHash.isSome && entry.compressionStrategy.isSome with
      | false => simp [successes, isSuccess, hcount, hboth]
      | true => simp [successes, isSuccess, hcount, hboth, hfeedback]

/-- Eviction queues the events of the evicted entries, in the order of their eviction. -/
theorem pending_evictOldest (fuel : ℕ) (hfeedback : store.enableFeedback = true) :
    (evictOldest eviction fuel store).pendingFeedbackEvents =
        store.pendingFeedbackEvents ++
          (successes eviction (evictedEntries eviction fuel store)).map Prod.fst ∧
      (evictOldest eviction fuel store).enableFeedback = true := by
  induction fuel generalizing store with
  | zero => exact ⟨(List.append_nil _).symm, hfeedback⟩
  | succ fuel ih =>
      rw [evictOldest, evictedEntries]
      split_ifs with hfull
      · cases hpop : heappop store.evictionHeap with
        | none => exact ⟨(List.append_nil _).symm, hfeedback⟩
        | some popped =>
            obtain ⟨item, rest⟩ := popped
            dsimp only
            cases hentry : store.poppedEntry item with
            | none =>
                rw [evictPopped_of_none { store with evictionHeap := rest } eviction hentry]
                exact ih _ hfeedback
            | some entry =>
                rw [evictPopped_of_some { store with evictionHeap := rest } eviction hfeedback
                  hentry]
                obtain ⟨hpending, henabled⟩ := ih
                  { store with
                    evictionHeap := rest
                    backend := store.backend.erase (ofLex item).2
                    pendingFeedbackEvents := store.pendingFeedbackEvents ++
                      (successes eviction [((ofLex item).2, entry)]).map Prod.fst } hfeedback
                refine ⟨hpending.trans ?_, henabled⟩
                dsimp only
                rw [List.append_assoc, ← List.map_append, ← successes_append]
                rfl
      · exact ⟨(List.append_nil _).symm, hfeedback⟩

/-- An entry stays if it is not evicted. -/
theorem get?_evictOldest (fuel : ℕ) {hash : Text} (hfeedback : store.enableFeedback = true)
    (hentry : store.backend.get? hash = some entry)
    (hstays : hash ∉ (evictedEntries eviction fuel store).map Prod.fst) :
    (evictOldest eviction fuel store).backend.get? hash = some entry := by
  induction fuel generalizing store with
  | zero => exact hentry
  | succ fuel ih =>
      rw [evictedEntries] at hstays
      rw [evictOldest]
      split_ifs at hstays ⊢ with hfull
      · cases hpop : heappop store.evictionHeap with
        | none => exact hentry
        | some popped =>
            obtain ⟨item, rest⟩ := popped
            rw [hpop] at hstays
            dsimp only at hstays ⊢
            cases hpopped : store.poppedEntry item with
            | none =>
                rw [evictPopped_of_none { store with evictionHeap := rest } eviction hpopped]
                  at hstays ⊢
                rw [hpopped] at hstays
                exact ih _ hfeedback hentry hstays
            | some gone =>
                rw [evictPopped_of_some { store with evictionHeap := rest } eviction hfeedback
                  hpopped] at hstays ⊢
                rw [hpopped, List.map_append, List.mem_append, not_or] at hstays
                refine ih _ hfeedback ?_ hstays.2
                have hother : hash ≠ (ofLex item).2 := fun hsame =>
                  hstays.1 (by rw [hsame]; exact List.mem_singleton_self _)
                exact (Dict.get?_erase _ _ _).trans ((if_neg hother).trans hentry)
      · exact hentry

/-! ## What a store queues -/

variable {store}

theorem rebuildIfStale_pending (store : CompressionStore) :
    store.rebuildIfStale.pendingFeedbackEvents = store.pendingFeedbackEvents := by
  rw [rebuildIfStale]
  split_ifs
  · rfl
  · rfl

variable (entry : CompressionEntry) (readings : StoreReadings)

theorem pending_storeLocked (hfeedback : store.enableFeedback = true) :
    (store.storeLocked entry readings).pendingFeedbackEvents =
        store.pendingFeedbackEvents ++ (store.owed (.store entry readings)).map Prod.fst ∧
      (store.storeLocked entry readings).enableFeedback = true := by
  rw [owed, evictions]
  cases hold : store.backend.get? entry.hash with
  | some old =>
      rw [storeLocked_of_some _ hold]
      exact ⟨(List.append_nil _).symm, hfeedback⟩
  | none =>
      rw [storeLocked_of_none _ hold]
      have hcleaned : (store.cleanExpired readings.expiry).rebuildIfStale.enableFeedback = true :=
        (rebuildIfStale_fields _).2.2.2.trans hfeedback
      obtain ⟨hpending, henabled⟩ := pending_evictOldest _ readings.eviction _ hcleaned
      rw [rebuildIfStale_pending] at hpending
      exact ⟨hpending, henabled⟩

/-- A store leaves an entry under another hash that it does not disturb. -/
theorem get?_storeLocked_other {hash : Text} {found : CompressionEntry}
    (hfeedback : store.enableFeedback = true) (hfound : store.backend.get? hash = some found)
    (hhash : entry.hash ≠ hash) (hstays : ¬store.Disturbs hash found (.store entry readings)) :
    (store.storeLocked entry readings).backend.get? hash = some found := by
  rw [Disturbs, if_neg hhash, not_and, not_or] at hstays
  cases hold : store.backend.get? entry.hash with
  | some old =>
      rw [storeLocked_of_some _ hold]
      exact (Dict.get?_set _ _ _ _).trans ((if_neg hhash.symm).trans hfound)
  | none =>
      obtain ⟨hfresh, hnotEvicted⟩ := hstays hold
      rw [storeLocked_of_none _ hold]
      refine (Dict.get?_set _ _ _ _).trans ((if_neg hhash.symm).trans ?_)
      have hcleaned : (store.cleanExpired readings.expiry).rebuildIfStale.backend.get? hash =
          some found := by
        rw [(rebuildIfStale_fields _).1]
        refine (Dict.get?_filter _ _ _).trans ?_
        rw [hfound, Option.filter_some, Bool.eq_false_iff.mpr hfresh]
        rfl
      rw [evictions, hold] at hnotEvicted
      exact get?_evictOldest _ _ _ ((rebuildIfStale_fields _).2.2.2.trans hfeedback) hcleaned
        hnotEvicted

end

/-! ## The queue -/

/-- An entry of the signature and the strategy of another one. -/
def SameData (entry kept : CompressionEntry) : Prop :=
  kept.toolSignatureHash = entry.toolSignatureHash ∧
    kept.compressionStrategy = entry.compressionStrategy

/-- The queued events, each with the entry it belongs to, are those of the store, and an entry of
the same data is under the hash of each. -/
structure Queued (store : CompressionStore) (queue : List (RetrievalEvent × CompressionEntry)) :
    Prop where
  events : store.pendingFeedbackEvents = queue.map Prod.fst
  own : ∀ owed ∈ queue, ∃ kept, store.backend.get? owed.1.hash = some kept ∧ SameData owed.2 kept
  enableFeedback : store.enableFeedback = true

section

variable {store : CompressionStore} {queue : List (RetrievalEvent × CompressionEntry)}

theorem queued_new (maxEntries defaultTtl : ℤ) : Queued (new maxEntries defaultTtl true) [] where
  events := rfl
  own owed howed := by cases howed
  enableFeedback := rfl

/-- A section that queues nothing and leaves every entry of the queue. -/
theorem Queued.of_get? {after : CompressionStore} (hqueued : Queued store queue)
    (hpending : after.pendingFeedbackEvents = store.pendingFeedbackEvents)
    (henabled : after.enableFeedback = store.enableFeedback)
    (hstays : ∀ event ∈ store.pendingFeedbackEvents, ∀ entry,
      store.backend.get? event.hash = some entry →
        ∃ kept, after.backend.get? event.hash = some kept ∧ SameData entry kept) :
    Queued after queue where
  events := hpending.trans hqueued.events
  own owed howed := by
    obtain ⟨entry, hentry, hsame⟩ := hqueued.own owed howed
    have hevent : owed.1 ∈ store.pendingFeedbackEvents := by
      rw [hqueued.events]
      exact List.mem_map_of_mem howed
    obtain ⟨kept, hkept, hdata⟩ := hstays owed.1 hevent entry hentry
    exact ⟨kept, hkept, hdata.1.trans hsame.1, hdata.2.trans hsame.2⟩
  enableFeedback := henabled.trans hqueued.enableFeedback

variable {hash : Text}

theorem get?_dropExpired {other : Text} (hother : hash ≠ other) :
    (store.dropExpired other).backend.get? hash = store.backend.get? hash :=
  (Dict.get?_erase _ _ _).trans (if_neg hother)
variable {hashKey : Text}
variable {entry : CompressionEntry} {drops : CompressionEntry → Bool}

/-- A look at a hash leaves an entry that it does not drop. -/
theorem get?_peeked (hentry : store.backend.get? hash = some entry)
    (hstays : ¬(hashKey = hash ∧ drops entry = true)) :
    (store.peeked hashKey drops).backend.get? hash = some entry := by
  rcases peeked_cases store hashKey drops with hresult | ⟨found, hfound, hdrops, hresult⟩
  · rw [hresult]
    exact hentry
  · have hother : hash ≠ hashKey := by
      rintro rfl
      rw [hentry, Option.some.injEq] at hfound
      exact hstays ⟨rfl, hfound ▸ hdrops⟩
    rw [hresult, get?_dropExpired hother]
    exact hentry

theorem peeked_fields (store : CompressionStore) (hashKey : Text)
    (drops : CompressionEntry → Bool) :
    (store.peeked hashKey drops).pendingFeedbackEvents = store.pendingFeedbackEvents ∧
      (store.peeked hashKey drops).enableFeedback = store.enableFeedback := by
  rcases peeked_cases store hashKey drops with hresult | ⟨found, hfound, hdrops, hresult⟩
  · rw [hresult]
    exact ⟨rfl, rfl⟩
  · rw [hresult]
    exact ⟨rfl, rfl⟩

variable {next : Section}

/-- A section that does not disturb an entry leaves one of its data under the hash. -/
theorem exists_get?_afterSection (hfeedback : store.enableFeedback = true)
    (hentry : store.backend.get? hash = some entry) (hstays : ¬store.Disturbs hash entry next) :
    ∃ kept, (store.afterSection next).backend.get? hash = some kept ∧ SameData entry kept := by
  cases next with
  | processPendingFeedback => exact ⟨entry, hentry, rfl, rfl⟩
  | store new readings =>
      by_cases hhash : new.hash = hash
      · rw [Disturbs, if_pos hhash, not_or, not_not, not_not] at hstays
        exact ⟨new, hhash ▸ get?_storeLocked store new readings, hstays⟩
      · exact ⟨entry, get?_storeLocked_other new readings hfeedback hentry hhash hstays, rfl, rfl⟩
  | retrieve hashKey query readings =>
      rw [afterSection]
      rcases retrieveLocked_cases store hashKey query readings with
        ⟨-, hresult⟩ | ⟨found, hfound, hexpired, hresult⟩ |
          ⟨found, events, pending, hfound, -, hresult⟩
      · rw [hresult]
        exact ⟨entry, hentry, rfl, rfl⟩
      · have hother : hash ≠ hashKey := by
          rintro rfl
          rw [hentry, Option.some.injEq] at hfound
          exact hstays ⟨rfl, hfound ▸ hexpired⟩
        rw [hresult, get?_dropExpired hother]
        exact ⟨entry, hentry, rfl, rfl⟩
      · rw [hresult]
        dsimp only
        rw [Dict.get?_set]
        split_ifs with hsame
        · subst hsame
          rw [hentry, Option.some.injEq] at hfound
          rw [← hfound]
          exact ⟨_, rfl, rfl, rfl⟩
        · exact ⟨entry, hentry, rfl, rfl⟩
  | getMetadata hashKey now =>
      rw [afterSection, getMetadata_fst]
      exact ⟨entry, get?_peeked hentry hstays, rfl, rfl⟩
  | «exists» hashKey cleanExpired now =>
      rw [afterSection, exists_fst]
      refine ⟨entry, get?_peeked hentry fun hdrops => hstays ?_, rfl, rfl⟩
      exact ⟨hdrops.1, (Bool.and_eq_true_iff.mp hdrops.2).symm⟩
  | getEntryStatus hashKey cleanExpired now =>
      rw [afterSection, getEntryStatus_fst]
      refine ⟨entry, get?_peeked hentry fun hdrops => hstays ?_, rfl, rfl⟩
      exact ⟨hdrops.1, (Bool.and_eq_true_iff.mp hdrops.2).symm⟩
  | clear => exact absurd trivial hstays

/-- A section that queues nothing and leaves every entry of the queue. -/
theorem Queued.keep (hqueued : Queued store queue) (hundisturbed : Undisturbed store next)
    (hpending : (store.afterSection next).pendingFeedbackEvents = store.pendingFeedbackEvents)
    (henabled : (store.afterSection next).enableFeedback = store.enableFeedback) :
    Queued (store.afterSection next) queue :=
  hqueued.of_get? hpending henabled fun event hevent entry hentry =>
    exists_get?_afterSection hqueued.enableFeedback hentry
      (hundisturbed.stays event hevent entry hentry)

theorem Queued.peeked (hqueued : Queued store queue) (hundisturbed : Undisturbed store next)
    (howed : store.owed next = []) (hafter : store.afterSection next = store.peeked hashKey drops) :
    Queued (store.afterSection next) (queue ++ store.owed next) := by
  obtain ⟨hpending, henabled⟩ := peeked_fields store hashKey drops
  rw [← hafter] at hpending henabled
  rw [howed, List.append_nil]
  exact hqueued.keep hundisturbed hpending henabled

/-- A retrieval that finds an entry queues the event of it. -/
theorem Queued.retrieve (hqueued : Queued store queue) {query : Option Text}
    {readings : RetrieveReadings}
    (hundisturbed : Undisturbed store (.retrieve hashKey query readings)) :
    Queued (store.retrieveLocked hashKey query readings).1
      (queue ++ store.owed (.retrieve hashKey query readings)) := by
  have hstays := fun event hevent entry hentry =>
    exists_get?_afterSection hqueued.enableFeedback hentry
      (hundisturbed.stays event hevent entry hentry)
  dsimp only [afterSection] at hstays
  have hfeedback := hqueued.enableFeedback
  rw [owed]
  rw [retrieveLocked] at hstays ⊢
  cases hentry : store.backend.get? hashKey with
  | none => rwa [List.append_nil]
  | some entry =>
      rw [hentry] at hstays
      dsimp only at hstays ⊢
      split_ifs at hstays ⊢ with hexpired
      · rw [List.append_nil]
        exact hqueued.of_get? rfl rfl hstays
      · refine ⟨?_, ?_, hfeedback⟩
        · rw [List.map_append, ← hqueued.events]
          rfl
        · intro owed howed
          rcases List.mem_append.mp howed with hold | hnew
          · have hset : Queued { store with
                backend := store.backend.set hashKey (entry.recordAccess query readings.access) }
                queue := hqueued.of_get? rfl rfl hstays
            exact hset.own owed hold
          · rw [List.mem_singleton.mp hnew]
            exact ⟨entry.recordAccess query readings.access,
              (Dict.get?_set _ _ _ _).trans (if_pos rfl), rfl, rfl⟩

/-- What a section does to the queue. -/
theorem Queued.after (hqueued : Queued store queue) (hundisturbed : Undisturbed store next)
    (hnext : next ≠ .processPendingFeedback) :
    Queued (store.afterSection next) (queue ++ store.owed next) ∧ store.handedOut next = [] := by
  cases next with
  | processPendingFeedback => exact absurd rfl hnext
  | store new readings =>
      obtain ⟨hpending, henabled⟩ := pending_storeLocked new readings hqueued.enableFeedback
      have hnone : store.owed (.store new readings) = [] := by
        rw [owed, successes, List.map_eq_nil_iff, List.filter_eq_nil_iff]
        intro evicted hevicted
        rw [hundisturbed.noSuccess new readings rfl evicted hevicted]
        exact Bool.false_ne_true
      rw [hnone, List.map_nil, List.append_nil] at hpending
      rw [hnone, List.append_nil]
      exact ⟨hqueued.keep hundisturbed hpending (henabled.trans hqueued.enableFeedback.symm), rfl⟩
  | retrieve hashKey query readings => exact ⟨hqueued.retrieve hundisturbed, rfl⟩
  | getMetadata hashKey now =>
      exact ⟨hqueued.peeked hundisturbed rfl (getMetadata_fst store hashKey now), rfl⟩
  | «exists» hashKey cleanExpired now =>
      exact ⟨hqueued.peeked hundisturbed rfl (exists_fst store hashKey cleanExpired now), rfl⟩
  | getEntryStatus hashKey cleanExpired now =>
      exact ⟨hqueued.peeked hundisturbed rfl (getEntryStatus_fst store hashKey cleanExpired now),
        rfl⟩
  | clear =>
      -- Every queued event has an entry, and a `clear` would take it away.
      have hempty : queue = [] := by
        refine List.eq_nil_iff_forall_not_mem.mpr fun owed howed => ?_
        obtain ⟨entry, hentry, -⟩ := hqueued.own owed howed
        refine hundisturbed.stays owed.1 ?_ entry hentry trivial
        rw [hqueued.events]
        exact List.mem_map_of_mem howed
      subst hempty
      exact ⟨⟨rfl, fun owed howed => (by cases howed), hqueued.enableFeedback⟩, rfl⟩

theorem Queued.attribution_gather (hqueued : Queued store queue) :
    (store.pendingFeedbackEvents.map store.gather).map attribution =
      (queue.map ownData).map attribution := by
  rw [hqueued.events, List.map_map, List.map_map, List.map_map]
  refine List.map_congr_left fun owed howed => ?_
  obtain ⟨kept, hkept, hsignature, hstrategy⟩ := hqueued.own owed howed
  simp only [Function.comp_apply, gather, hkept, attribution, ownData, hsignature, hstrategy]

/-- Behind the processing nothing is queued. -/
theorem queued_processPendingFeedback (hfeedback : store.enableFeedback = true) :
    Queued store.processPendingFeedback.1 [] where
  events := rfl
  own owed howed := by cases howed
  enableFeedback := hfeedback

/-- What is owed has been handed out or is queued, in this order. -/
structure Accounted (run : FeedbackRun) : Prop where
  split : ∃ settled queue, run.owed = settled ++ queue ∧
    run.handed.map attribution = (settled.map ownData).map attribution ∧ Queued run.store queue

variable {run : FeedbackRun}

theorem Accounted.step (haccounted : Accounted run) (hundisturbed : Undisturbed run.store next) :
    Accounted (run.step next) := by
  obtain ⟨settled, queue, howed, hhanded, hqueued⟩ := haccounted.split
  by_cases hnext : next = .processPendingFeedback
  · subst hnext
    refine ⟨settled ++ queue, [], ?_, ?_, queued_processPendingFeedback hqueued.enableFeedback⟩
    · exact congrArg (· ++ []) howed
    · show (run.handed ++ run.store.pendingFeedbackEvents.map run.store.gather).map attribution =
        ((settled ++ queue).map ownData).map attribution
      rw [List.map_append, hhanded, hqueued.attribution_gather, List.map_append, List.map_append]
  · obtain ⟨hafter, hnothing⟩ := hqueued.after hundisturbed hnext
    refine ⟨settled, queue ++ run.store.owed next, ?_, ?_, hafter⟩
    · show run.owed ++ run.store.owed next = _
      rw [howed, List.append_assoc]
    · show (run.handed ++ run.store.handedOut next).map attribution = _
      rw [hnothing, List.append_nil, hhanded]

theorem Accounted.foldl (haccounted : Accounted run) {sections : List Section}
    (hrun : UndisturbedRun run.store sections) :
    Accounted (sections.foldl FeedbackRun.step run) := by
  induction sections generalizing run with
  | nil => exact haccounted
  | cons next sections ih => exact ih (haccounted.step hrun.1) hrun.2

end

section

variable {Items : Type*} (fieldsOf : Text → List Text) (itemsOf : Text → Option Items)

/-- Apart from the items, the calls for an event depend on its attribution only. -/
theorem withoutItems_consumerCalls {data other : EventData}
    (hsame : attribution data = attribution other) :
    (consumerCalls fieldsOf itemsOf data).map ConsumerCall.withoutItems =
      (consumerCalls fieldsOf itemsOf other).map ConsumerCall.withoutItems := by
  obtain ⟨hevent, hsignature, hstrategy⟩ : data.event = other.event ∧
      data.toolSignatureHash = other.toolSignatureHash ∧
      data.compressionStrategy = other.compressionStrategy := by
    simpa [attribution] using hsame
  rw [consumerCalls, consumerCalls, hevent, hsignature, hstrategy]
  cases other.toolSignatureHash with
  | none => rfl
  | some signature => rfl

theorem withoutItems_flatMap {handed owed : List EventData}
    (hsame : handed.map attribution = owed.map attribution) :
    (handed.flatMap (consumerCalls fieldsOf itemsOf)).map ConsumerCall.withoutItems =
      (owed.flatMap (consumerCalls fieldsOf itemsOf)).map ConsumerCall.withoutItems := by
  induction handed generalizing owed with
  | nil =>
      cases owed with
      | nil => rfl
      | cons data owed => cases hsame
  | cons data handed ih =>
      cases owed with
      | nil => cases hsame
      | cons other owed =>
          rw [List.map_cons, List.map_cons, List.cons.injEq] at hsame
          rw [List.flatMap_cons, List.flatMap_cons, List.map_append, List.map_append,
            withoutItems_consumerCalls fieldsOf itemsOf hsame.1, ih hsame.2]

/-- In an undisturbed run, the consumers are told of every event once it is processed, once and in
order, with the signature and the strategy of the entry that the event belongs to. -/
theorem feedback_delivered (maxEntries defaultTtl : ℤ) {sections : List Section}
    (hrun : UndisturbedRun (new maxEntries defaultTtl true) sections) :
    let run := feedbackRun maxEntries defaultTtl sections
    let handed := run.handed ++ run.store.processPendingFeedback.2
    handed.map attribution = (run.owed.map ownData).map attribution ∧
      (handed.flatMap (consumerCalls fieldsOf itemsOf)).map ConsumerCall.withoutItems =
        ((run.owed.map ownData).flatMap (consumerCalls fieldsOf itemsOf)).map
          ConsumerCall.withoutItems := by
  intro run handed
  have haccounted : Accounted run :=
    Accounted.foldl ⟨[], [], rfl, rfl, queued_new maxEntries defaultTtl⟩ hrun
  obtain ⟨settled, queue, howed, hhanded, hqueued⟩ := haccounted.split
  have hsame : handed.map attribution = (run.owed.map ownData).map attribution := by
    rw [howed, List.map_append, List.map_append, List.map_append, ← hhanded,
      ← hqueued.attribution_gather]
    rfl
  exact ⟨hsame, withoutItems_flatMap fieldsOf itemsOf hsame⟩

end

/-! ## Runs on fixed entries -/

/-- An entry with a signature and a strategy. -/
def learnedEntry (hash : String) : CompressionEntry :=
  { (new 1 1800 true).entryOf (requestUnder hash) (text hash) 0 with
    toolSignatureHash := some (text "signature")
    compressionStrategy := some (text "strategy") }

/-- A retrieval is heard of with the data of the entry. -/
theorem feedback_delivered_retrieve :
    let sections := [Section.store (learnedEntry "ab") atZero,
      .retrieve (text "ab") none ⟨0, 0, 0⟩]
    let run := feedbackRun 1 1800 sections
    run.owed.length = 1 ∧
      (run.handed ++ run.store.processPendingFeedback.2).map attribution =
        (run.owed.map ownData).map attribution := by
  have hrun : UndisturbedRun (new 1 1800 true) [Section.store (learnedEntry "ab") atZero,
      .retrieve (text "ab") none ⟨0, 0, 0⟩] := by
    refine ⟨⟨?_, fun event hevent => by cases hevent⟩,
      ⟨fun entry readings hnext => (by cases hnext), ?_⟩, trivial⟩
    · rintro entry readings hnext evicted hevicted
      cases hnext
      cases hevicted
    · intro event hevent
      have hempty : ((new 1 1800 true).afterSection
          (.store (learnedEntry "ab") atZero)).pendingFeedbackEvents = [] := by
        decide +kernel
      rw [hempty] at hevent
      cases hevent
  refine ⟨by decide +kernel, ?_⟩
  exact (feedback_delivered (fun _ => []) (fun _ => (none : Option Unit)) 1 1800 hrun).1

/-- The event of an entry that was evicted comes without its signature and its strategy. -/
theorem feedback_unattributed :
    ¬∀ (maxEntries defaultTtl : ℤ) (sections : List Section),
      let run := feedbackRun maxEntries defaultTtl sections
      (run.handed ++ run.store.processPendingFeedback.2).map attribution =
        (run.owed.map ownData).map attribution := by
  intro hall
  have hevicted := hall 1 1800 [.store (learnedEntry "ab") atZero, .processPendingFeedback,
    .store (learnedEntry "cd") atZero, .processPendingFeedback]
  revert hevicted
  decide +kernel

end CompressionStore

end Legroom.Cache
