import Legroom.Lib.Python.LazyHeap
import Legroom.Lib.Python.Text
import Legroom.Lib.Bytes
import Mathlib.Algebra.Order.Ring.Rat
import Mathlib.Order.Fin.Basic

/-!
# The compression store

What was compressed away is kept under a hash until it expires or has to make room.
The entries are in a dictionary; a heap of creation times and hashes, some of them
stale, tells which entry is the oldest.  Retrievals, and evictions of entries that no
one retrieved, are queued for the feedback consumers.  The digest of a content and
the clock are parameters.
-/

namespace Legroom.Cache

open Python

structure CompressionEntry where
  hash : Text
  originalContent : Text
  compressedContent : Text
  originalTokens : ℤ
  compressedTokens : ℤ
  originalItemCount : ℤ
  compressedItemCount : ℤ
  toolName : Option Text
  toolCallId : Option Text
  queryContext : Option Text
  createdAt : ℚ
  ttl : ℤ
  toolSignatureHash : Option Text
  compressionStrategy : Option Text
  retrievalCount : ℕ
  searchQueries : List Text
  lastAccessed : Option ℚ
  deriving DecidableEq

namespace CompressionEntry

def isExpired (entry : CompressionEntry) (now : ℚ) : Bool := entry.ttl < now - entry.createdAt

def maxSearchQueries : ℕ := 10

/-- The queries with a new one behind them; the last ten are kept. -/
def withQuery (queries : List Text) : Option Text → List Text
  | none => queries
  | some query =>
      if query = [] ∨ query ∈ queries then queries
      else
        let queries := queries ++ [query]
        queries.drop (queries.length - maxSearchQueries)

def recordAccess (entry : CompressionEntry) (query : Option Text) (now : ℚ) : CompressionEntry :=
  { entry with
    retrievalCount := entry.retrievalCount + 1
    lastAccessed := some now
    searchQueries := withQuery entry.searchQueries query }

end CompressionEntry

structure RetrievalEvent where
  hash : Text
  query : Option Text
  itemsRetrieved : ℤ
  totalItems : ℤ
  toolName : Option Text
  timestamp : ℚ
  retrievalType : Text
  toolSignatureHash : Option Text
  deriving DecidableEq

/-- An event with what the store has under its hash. -/
structure EventData where
  event : RetrievalEvent
  toolName : Option Text
  toolSignatureHash : Option Text
  compressionStrategy : Option Text
  compressedContent : Option Text
  deriving DecidableEq

structure CompressionStore where
  backend : Dict Text CompressionEntry
  maxEntries : ℤ
  defaultTtl : ℤ
  enableFeedback : Bool
  retrievalEvents : List RetrievalEvent
  pendingFeedbackEvents : List RetrievalEvent
  evictionHeap : List (ℚ ×ₗ Text)
  staleHeapEntries : ℕ

/-- The arguments of `store`. -/
structure StoreRequest where
  original : Text
  compressed : Text
  originalTokens : ℤ
  compressedTokens : ℤ
  originalItemCount : ℤ
  compressedItemCount : ℤ
  toolName : Option Text
  toolCallId : Option Text
  queryContext : Option Text
  toolSignatureHash : Option Text
  compressionStrategy : Option Text
  ttl : Option ℤ
  explicitHash : Option Text

/-- What the clock says in a call of `store`. -/
structure StoreReadings where
  createdAt : ℚ
  /-- When the entry of a key is checked for expiry. -/
  expiry : Text → ℚ
  /-- When the eviction of a key is recorded. -/
  eviction : Text → ℚ

structure RetrieveReadings where
  expiry : ℚ
  access : ℚ
  log : ℚ

inductive EntryState where
  | missing
  | expired
  | available
  deriving DecidableEq

structure EntryStatus where
  hash : Text
  status : EntryState
  defaultTtlSeconds : ℤ
  ttlSeconds : Option ℤ
  createdAt : Option ℚ
  expiresAt : Option ℚ
  ageSeconds : Option ℚ
  deriving DecidableEq

structure EntryMetadata where
  hash : Text
  toolName : Option Text
  originalItemCount : ℤ
  compressedItemCount : ℤ
  queryContext : Option Text
  compressedContent : Text
  originalContentPreview : Text
  createdAt : ℚ
  ttl : ℤ
  deriving DecidableEq

inductive StoreError where
  /-- The hash is not a string of hexadecimal digits. -/
  | explicitHash (hash : Text)
  /-- The content has no UTF-8 encoding. -/
  | unencodable
  deriving DecidableEq

def hexDigits : Text := text "0123456789abcdefABCDEF"

def isHex (hash : Text) : Bool := !hash.isEmpty && hash.all fun char => hexDigits.contains char

namespace CompressionStore

def maxEvents : ℕ := 1000

def heapRebuildThreshold : ℚ := 1 / 2

def new (maxEntries defaultTtl : ℤ) (enableFeedback : Bool) : CompressionStore where
  backend := .empty
  maxEntries := maxEntries
  defaultTtl := defaultTtl
  enableFeedback := enableFeedback
  retrievalEvents := []
  pendingFeedbackEvents := []
  evictionHeap := []
  staleHeapEntries := 0

/-! ## Eviction -/

def cleanExpired (store : CompressionStore) (expiry : Text → ℚ) : CompressionStore :=
  let backend := store.backend.filter fun key entry => !entry.isExpired (expiry key)
  { store with
    backend := backend
    staleHeapEntries := store.staleHeapEntries + (store.backend.size - backend.size) }

def rebuildHeap (store : CompressionStore) : CompressionStore :=
  { store with
    evictionHeap := heapItems CompressionEntry.createdAt store.backend
    staleHeapEntries := 0 }

def evictionSuccess : Text := text "eviction_success"

def successEvent (entry : CompressionEntry) (now : ℚ) : RetrievalEvent where
  hash := entry.hash
  query := none
  itemsRetrieved := 0
  totalItems := entry.originalItemCount
  toolName := entry.toolName
  timestamp := now
  retrievalType := evictionSuccess
  toolSignatureHash := entry.toolSignatureHash

def recordEvictionSuccess (store : CompressionStore) (entry : CompressionEntry) (now : ℚ) :
    CompressionStore :=
  if entry.toolSignatureHash.isSome && entry.compressionStrategy.isSome then
    { store with
      pendingFeedbackEvents := store.pendingFeedbackEvents ++ [successEvent entry now] }
  else store

/-- What is done about a pair that was popped. -/
def evictPopped (store : CompressionStore) (eviction : Text → ℚ) (item : ℚ ×ₗ Text) :
    CompressionStore :=
  let key := (ofLex item).2
  match store.backend.get? key with
  | some entry =>
      if entry.createdAt = (ofLex item).1 then
        let store :=
          if store.enableFeedback && entry.retrievalCount == 0 then
            store.recordEvictionSuccess entry (eviction key)
          else store
        { store with backend := store.backend.erase key }
      else { store with staleHeapEntries := store.staleHeapEntries - 1 }
  | none => { store with staleHeapEntries := store.staleHeapEntries - 1 }

/-- The loop of `_evict_if_needed`; every pass pops a pair. -/
def evictOldest (eviction : Text → ℚ) : ℕ → CompressionStore → CompressionStore
  | 0, store => store
  | fuel + 1, store =>
      if store.maxEntries ≤ store.backend.size then
        match heappop store.evictionHeap with
        | none => store
        | some (item, rest) =>
            evictOldest eviction fuel
              (evictPopped { store with evictionHeap := rest } eviction item)
      else store

def rebuildIfStale (store : CompressionStore) : CompressionStore :=
  if 0 < store.evictionHeap.length ∧
      heapRebuildThreshold ≤ (store.staleHeapEntries : ℚ) / store.evictionHeap.length then
    store.rebuildHeap
  else store

def evictIfNeeded (store : CompressionStore) (readings : StoreReadings) : CompressionStore :=
  let store := (store.cleanExpired readings.expiry).rebuildIfStale
  evictOldest readings.eviction store.evictionHeap.length store

/-! ## Sections under the lock -/

/-- The part of `store` under the lock. -/
def storeLocked (store : CompressionStore) (entry : CompressionEntry) (readings : StoreReadings) :
    CompressionStore :=
  let store :=
    match store.backend.get? entry.hash with
    | none => store.evictIfNeeded readings
    | some _ => { store with staleHeapEntries := store.staleHeapEntries + 1 }
  { store with
    backend := store.backend.set entry.hash entry
    evictionHeap := heappush store.evictionHeap (toLex (entry.createdAt, entry.hash)) }

def full : Text := text "full"

def retrievalEvent (hashKey : Text) (query : Option Text) (entry : CompressionEntry) (now : ℚ) :
    RetrievalEvent where
  hash := hashKey
  query := query
  itemsRetrieved := entry.originalItemCount
  totalItems := entry.originalItemCount
  toolName := entry.toolName
  timestamp := now
  retrievalType := full
  toolSignatureHash := entry.toolSignatureHash

def logRetrieval (store : CompressionStore) (event : RetrievalEvent) : CompressionStore :=
  let events := store.retrievalEvents ++ [event]
  { store with
    retrievalEvents := events.drop (events.length - maxEvents)
    pendingFeedbackEvents := store.pendingFeedbackEvents ++ [event] }

/-- An expired entry that is met is deleted. -/
def dropExpired (store : CompressionStore) (hashKey : Text) : CompressionStore :=
  { store with
    backend := store.backend.erase hashKey
    staleHeapEntries := store.staleHeapEntries + 1 }

/-- The part of `retrieve` under the lock. -/
def retrieveLocked (store : CompressionStore) (hashKey : Text) (query : Option Text)
    (readings : RetrieveReadings) : CompressionStore × Option CompressionEntry :=
  match store.backend.get? hashKey with
  | none => (store, none)
  | some entry =>
      if entry.isExpired readings.expiry then (store.dropExpired hashKey, none)
      else
        let entry := entry.recordAccess query readings.access
        let store := { store with backend := store.backend.set hashKey entry }
        if store.enableFeedback then
          (store.logRetrieval (retrievalEvent hashKey query entry readings.log), some entry)
        else (store, some entry)

/-- An event with the data of the entry that is under its hash now. -/
def gather (store : CompressionStore) (event : RetrievalEvent) : EventData :=
  match store.backend.get? event.hash with
  | some entry =>
      ⟨event, entry.toolName, entry.toolSignatureHash, entry.compressionStrategy,
        some entry.compressedContent⟩
  | none => ⟨event, none, none, none, none⟩

/-- The queued events are handed out, each with what is found under its hash. -/
def processPendingFeedback (store : CompressionStore) : CompressionStore × List EventData :=
  ({ store with pendingFeedbackEvents := [] }, store.pendingFeedbackEvents.map store.gather)

/-! ## Calls -/

def processIfEnabled (store : CompressionStore) : CompressionStore × List EventData :=
  if store.enableFeedback then store.processPendingFeedback else (store, [])

def previewChars : ℕ := 2000

def getMetadata (store : CompressionStore) (hashKey : Text) (now : ℚ) :
    CompressionStore × Option EntryMetadata :=
  match store.backend.get? hashKey with
  | none => (store, none)
  | some entry =>
      if entry.isExpired now then (store.dropExpired hashKey, none)
      else
        (store, some ⟨entry.hash, entry.toolName, entry.originalItemCount,
          entry.compressedItemCount, entry.queryContext, entry.compressedContent,
          entry.originalContent.take previewChars, entry.createdAt, entry.ttl⟩)

def «exists» (store : CompressionStore) (hashKey : Text) (cleanExpired : Bool) (now : ℚ) :
    CompressionStore × Bool :=
  match store.backend.get? hashKey with
  | none => (store, false)
  | some entry =>
      if entry.isExpired now then
        (if cleanExpired then store.dropExpired hashKey else store, false)
      else (store, true)

def getEntryStatus (store : CompressionStore) (hashKey : Text) (cleanExpired : Bool) (now : ℚ) :
    CompressionStore × EntryStatus :=
  match store.backend.get? hashKey with
  | none => (store, ⟨hashKey, .missing, store.defaultTtl, none, none, none, none⟩)
  | some entry =>
      let expired := entry.isExpired now
      (if expired && cleanExpired then store.dropExpired hashKey else store,
        ⟨hashKey, if expired then .expired else .available, store.defaultTtl, some entry.ttl,
          some entry.createdAt, some (entry.createdAt + entry.ttl), some (now - entry.createdAt)⟩)

def clear (store : CompressionStore) : CompressionStore :=
  { store with
    backend := .empty
    retrievalEvents := []
    pendingFeedbackEvents := []
    evictionHeap := []
    staleHeapEntries := 0 }

section

-- The SHA-256 digest of a content in UTF-8; there is none if it cannot be encoded.
variable (digest : Text → Option (Vector Byte 32))

def contentHashChars : ℕ := 24

def contentHash (content : Text) : Option Text :=
  (digest content).map fun bytes =>
    (bytes.toList.flatMap fun byte => hexText 2 byte.toNat).take contentHashChars

def keyOf (request : StoreRequest) : Except StoreError Text :=
  match request.explicitHash with
  | some hash => if isHex hash then .ok (asciiLower hash) else .error (.explicitHash hash)
  | none =>
      match contentHash digest request.original with
      | some hash => .ok hash
      | none => .error .unencodable

def entryOf (store : CompressionStore) (request : StoreRequest) (key : Text) (createdAt : ℚ) :
    CompressionEntry where
  hash := key
  originalContent := request.original
  compressedContent := request.compressed
  originalTokens := request.originalTokens
  compressedTokens := request.compressedTokens
  originalItemCount := request.originalItemCount
  compressedItemCount := request.compressedItemCount
  toolName := request.toolName
  toolCallId := request.toolCallId
  queryContext := request.queryContext
  createdAt := createdAt
  ttl := request.ttl.getD store.defaultTtl
  toolSignatureHash := request.toolSignatureHash
  compressionStrategy := request.compressionStrategy
  retrievalCount := 0
  searchQueries := []
  lastAccessed := none

def store (store : CompressionStore) (request : StoreRequest) (readings : StoreReadings) :
    CompressionStore × Except StoreError Text × List EventData :=
  match keyOf digest request with
  | .error error => (store, .error error, [])
  | .ok key =>
      let entry := store.entryOf request key readings.createdAt
      let processed := store.processIfEnabled
      (processed.1.storeLocked entry readings, .ok key, processed.2)

def retrieve (store : CompressionStore) (hashKey : Text) (query : Option Text)
    (readings : RetrieveReadings) :
    CompressionStore × Option CompressionEntry × List EventData :=
  let retrieved := store.retrieveLocked hashKey query readings
  match retrieved.2 with
  | none => (retrieved.1, none, [])
  | some entry =>
      let processed := retrieved.1.processIfEnabled
      (processed.1, some entry, processed.2)

end

end CompressionStore

end Legroom.Cache
