import Legroom.Cache.PrefixTracker
import Legroom.Lib.Python.Dict
import Legroom.Lib.SplitOn
import Mathlib.Algebra.Order.Ring.Rat

/-!
# Trackers of concurrent conversations

Conversations may share a session id.  Each gets the tracker that served the longest
beginning of its history, and the first one rides the bare session id.  Trackers that
were idle for too long are removed now and then, by whatever call comes by.
-/

namespace Legroom.Cache

open Python

/-! ## Clock readings -/

/-- What the clock says while expired trackers are removed. -/
structure CleanupReadings where
  now : ℚ
  /-- When the tracker of a key is looked at. -/
  expiry : Text → ℚ

structure FetchReadings where
  cleanup : CleanupReadings
  idle : ℚ
  activity : ℚ

structure ResolveReadings where
  cleanup : CleanupReadings
  fetch : FetchReadings

/-! ## Lineages -/

mutual

/-- A copy in which a NaN is a text. -/
def lineageSnapshot : Value → Value
  | .dict entries => .dict (snapshotEntries entries)
  | .list items => .list (snapshotItems items)
  | .number (.nan _) => .str (text "\x00nan")
  | value => value

def snapshotItems : List Value → List Value
  | [] => []
  | item :: items => lineageSnapshot item :: snapshotItems items

def snapshotEntries : List (Text × Value) → List (Text × Value)
  | [] => []
  | (key, value) :: entries => (key, lineageSnapshot value) :: snapshotEntries entries

end

/-- The messages that a lineage served last. -/
abbrev Chain := List Value

/-- The lineages of a session id. -/
abbrev Family := Dict Text Chain

/-- A recorded history is the beginning of another. -/
def isChainPrefix (chain snap : Chain) : Bool :=
  chain.length ≤ snap.length && sameItems (snap.take chain.length) chain

def betterLineage (snap : Chain) (best : Option (Text × ℕ)) (entry : Text × Chain) :
    Option (Text × ℕ) :=
  if best.any (entry.2.length ≤ ·.2) then best
  else if isChainPrefix entry.2 snap then some (entry.1, entry.2.length)
  else best

/-- The lineage with the longest history that the messages extend. -/
def bestLineage (family : Family) (snap : Chain) : Option Text :=
  (family.entries.foldl (betterLineage snap) none).map Prod.fst

def nul : CodePoint := 0

def lineageKey (sessionId : Text) (number : ℕ) : Text := sessionId ++ nul :: decimalText number

def overflowKey (sessionId : Text) : Text := sessionId ++ nul :: text "overflow"

/-! ## The store -/

structure SessionTrackerStore where
  trackers : Dict Text PrefixCacheTracker
  defaultConfig : PrefixFreezeConfig
  lastCleanup : ℚ
  lineages : Dict Text Family
  lineageCounter : ℕ
  /-- The number of trackers that were ever created. -/
  created : ℕ

def cleanupInterval : ℚ := 60

def PrefixCacheTracker.isExpired (tracker : PrefixCacheTracker) (config : PrefixFreezeConfig)
    (now : ℚ) : Bool :=
  config.sessionTtlSeconds < now - tracker.lastActivity

namespace SessionTrackerStore

def new (config : PrefixFreezeConfig) (now : ℚ) : SessionTrackerStore where
  trackers := .empty
  defaultConfig := config
  lastCleanup := now
  lineages := .empty
  lineageCounter := 1
  created := 0

/-- Lineages without a tracker are dropped, and session ids without a lineage. -/
def pruneLineages (trackers : Dict Text PrefixCacheTracker) (lineages : Dict Text Family) :
    Dict Text Family :=
  (lineages.mapValues fun family => family.filter fun key _ => (trackers.get? key).isSome).filter
    fun _ family => family.size ≠ 0

def maybeCleanup (store : SessionTrackerStore) (readings : CleanupReadings) :
    SessionTrackerStore :=
  if readings.now - store.lastCleanup < cleanupInterval then store
  else
    let expired := fun key (tracker : PrefixCacheTracker) =>
      tracker.isExpired store.defaultConfig (readings.expiry key)
    let trackers := store.trackers.filter fun key tracker => !expired key tracker
    { store with
      trackers := trackers
      lineages := if (store.trackers.filter expired).size = 0 then store.lineages
        else pruneLineages trackers store.lineages
      lastCleanup := readings.now }

variable (store : SessionTrackerStore)

@[simp]
theorem defaultConfig_maybeCleanup (readings : CleanupReadings) :
    (store.maybeCleanup readings).defaultConfig = store.defaultConfig := by
  rw [maybeCleanup]
  split_ifs
  · rfl
  · rfl

@[simp]
theorem lineageCounter_maybeCleanup (readings : CleanupReadings) :
    (store.maybeCleanup readings).lineageCounter = store.lineageCounter := by
  rw [maybeCleanup]
  split_ifs
  · rfl
  · rfl

@[simp]
theorem created_maybeCleanup (readings : CleanupReadings) :
    (store.maybeCleanup readings).created = store.created := by
  rw [maybeCleanup]
  split_ifs
  · rfl
  · rfl

def getOrCreate (store : SessionTrackerStore) (readings : FetchReadings) (key provider : Text) :
    PrefixCacheTracker × SessionTrackerStore :=
  let store := store.maybeCleanup readings.cleanup
  match store.trackers.get? key with
  | some found =>
      let tracker := { found with
        idleSecondsAtFetch := max 0 (readings.idle - found.lastActivity)
        lastActivity := readings.activity }
      (tracker, { store with trackers := store.trackers.set key tracker })
  | none =>
      let tracker := PrefixCacheTracker.new store.created provider readings.activity
      (tracker, { store with
        trackers := store.trackers.set key tracker
        created := store.created + 1 })

variable {store : SessionTrackerStore} {readings : FetchReadings} {provider : Text}

theorem getOrCreate_of_found {key : Text} {found : PrefixCacheTracker}
    (hfound : (store.maybeCleanup readings.cleanup).trackers.get? key = some found) :
    store.getOrCreate readings key provider =
      let store := store.maybeCleanup readings.cleanup
      let tracker := { found with
        idleSecondsAtFetch := max 0 (readings.idle - found.lastActivity)
        lastActivity := readings.activity }
      (tracker, { store with trackers := store.trackers.set key tracker }) := by
  rw [getOrCreate]
  dsimp only
  rw [hfound]

theorem getOrCreate_of_none {key : Text}
    (hnone : (store.maybeCleanup readings.cleanup).trackers.get? key = none) :
    store.getOrCreate readings key provider =
      let store := store.maybeCleanup readings.cleanup
      let tracker := PrefixCacheTracker.new store.created provider readings.activity
      (tracker, { store with
        trackers := store.trackers.set key tracker
        created := store.created + 1 }) := by
  rw [getOrCreate]
  dsimp only
  rw [hnone]

/-- The store in which a lineage is looked for. -/
def prepare (store : SessionTrackerStore) (readings : CleanupReadings) (sessionId : Text) :
    SessionTrackerStore :=
  let store := store.maybeCleanup readings
  { store with lineages := store.lineages.setDefault sessionId .empty }

/-- The history is written to the family that was read before.  A family that was
dropped in between is not in the index any more. -/
def stamp (sessionId key : Text) (snap : Chain)
    (fetched : PrefixCacheTracker × SessionTrackerStore) :
    PrefixCacheTracker × SessionTrackerStore :=
  (fetched.1,
    match fetched.2.lineages.get? sessionId with
    | some family =>
        { fetched.2 with lineages := fetched.2.lineages.set sessionId (family.set key snap) }
    | none => fetched.2)

def resolveTracker (store : SessionTrackerStore) (readings : ResolveReadings)
    (sessionId provider : Text) (messages : List Value) :
    PrefixCacheTracker × SessionTrackerStore :=
  let canon := canonicalizeItems messages
  if messages.isEmpty || !store.defaultConfig.enabled then
    store.getOrCreate readings.fetch sessionId provider
  else if canon.isEmpty then
    (store.maybeCleanup readings.cleanup).getOrCreate readings.fetch sessionId provider
  else
    let snap := snapshotItems canon
    let store := store.prepare readings.cleanup sessionId
    let family := (store.lineages.get? sessionId).getD .empty
    match bestLineage family snap with
    | some key => stamp sessionId key snap (store.getOrCreate readings.fetch key provider)
    | none =>
        if store.defaultConfig.maxLineagesPerSession ≤ family.size then
          store.getOrCreate readings.fetch (overflowKey sessionId) provider
        else if family.size = 0 then
          stamp sessionId sessionId snap (store.getOrCreate readings.fetch sessionId provider)
        else
          let key := lineageKey sessionId store.lineageCounter
          let store := { store with lineageCounter := store.lineageCounter + 1 }
          stamp sessionId key snap (store.getOrCreate readings.fetch key provider)

end SessionTrackerStore

/-!
## The lineage index

An indexed key has a tracker, and a tracker is indexed.  A cleanup keeps this, but it
may drop a family that is being used.
-/

/-! ## Keys -/

variable {sessionId : Text}

theorem sessionId_of_lineageKey {other : Text} {number : ℕ} (hnul : nul ∉ sessionId) :
    lineageKey other number ≠ sessionId := by
  rintro rfl
  exact hnul (List.mem_append_right _ List.mem_cons_self)

theorem lineageKey_injective {other : Text} {number otherNumber : ℕ} (hsession : nul ∉ sessionId)
    (hother : nul ∉ other) (heq : lineageKey sessionId number = lineageKey other otherNumber) :
    sessionId = other ∧ number = otherNumber := by
  obtain ⟨rfl, hdigits⟩ := eq_of_append_cons hsession hother heq
  exact ⟨rfl, decimalText_injective hdigits⟩

/-! ## Best lineages -/

variable {family : Family}

/-- A best lineage is one that the messages extend. -/
theorem bestLineage_mem {snap : Chain} {key : Text} (hbest : bestLineage family snap = some key) :
    ∃ chain, family.get? key = some chain ∧ isChainPrefix chain snap = true := by
  obtain ⟨⟨found, length⟩, hfold, hkey⟩ := Option.map_eq_some_iff.mp hbest
  rw [show found = key from hkey] at hfold
  have hrun : ∀ (entries : List (Text × Chain)) (best : Option (Text × ℕ)),
      entries.foldl (betterLineage snap) best = some (key, length) →
        best = some (key, length) ∨ ∃ chain, (key, chain) ∈ entries ∧
          isChainPrefix chain snap = true := by
    intro entries
    induction entries with
    | nil => exact fun best hbest => .inl hbest
    | cons entry entries ih =>
        intro best hbest
        rw [List.foldl_cons] at hbest
        rcases ih _ hbest with hstep | ⟨chain, hchain, hmatches⟩
        · rw [betterLineage] at hstep
          split_ifs at hstep with hlonger hmatches
          · exact .inl hstep
          · cases hstep
            exact .inr ⟨entry.2, List.mem_cons_self, hmatches⟩
          · exact .inl hstep
        · exact .inr ⟨chain, List.mem_cons_of_mem entry hchain, hmatches⟩
  rcases hrun _ _ hfold with hnone | ⟨chain, hchain, hmatches⟩
  · cases hnone
  · exact ⟨chain, Dict.get?_eq_some_iff.mpr hchain, hmatches⟩

/-- There is a best lineage if the messages extend one. -/
theorem bestLineage_isSome {snap chain : Chain} {key : Text} (hchain : family.get? key = some chain)
    (hmatches : isChainPrefix chain snap = true) : (bestLineage family snap).isSome := by
  rw [bestLineage, Option.isSome_map]
  have hmem := Dict.get?_eq_some_iff.mp hchain
  have hstays : ∀ (entries : List (Text × Chain)) (best : Option (Text × ℕ)), best.isSome →
      (entries.foldl (betterLineage snap) best).isSome := by
    intro entries
    induction entries with
    | nil => exact fun best hbest => hbest
    | cons entry entries ih =>
        intro best hbest
        refine ih _ ?_
        rw [betterLineage]
        split_ifs
        · exact hbest
        · rfl
        · exact hbest
  obtain ⟨before, after, hsplit⟩ := List.append_of_mem hmem
  rw [hsplit, List.foldl_append, List.foldl_cons]
  refine hstays after _ ?_
  rw [betterLineage]
  split_ifs with hlonger
  · rw [Option.any_eq_true_iff_get] at hlonger
    exact hlonger.1
  · rfl

namespace SessionTrackerStore

/-- The history that is indexed for a key. -/
def chain? (store : SessionTrackerStore) (sessionId key : Text) : Option Chain :=
  (store.lineages.get? sessionId).bind (·.get? key)
variable {store : SessionTrackerStore} {sessionId : Text}

theorem chain?_eq_some_iff {key : Text} {chain : Chain} :
    store.chain? sessionId key = some chain ↔
      ∃ family, store.lineages.get? sessionId = some family ∧ family.get? key = some chain :=
  Option.bind_eq_some_iff

/-! ## Cleanup -/

/-- A tracker that a cleanup removes. -/
def Removes (store : SessionTrackerStore) (readings : CleanupReadings) (key : Text)
    (tracker : PrefixCacheTracker) : Prop :=
  cleanupInterval ≤ readings.now - store.lastCleanup ∧
    tracker.isExpired store.defaultConfig (readings.expiry key) = true

theorem get?_trackers_maybeCleanup {store : SessionTrackerStore} {readings : CleanupReadings}
    {key : Text} {tracker : PrefixCacheTracker} :
    (store.maybeCleanup readings).trackers.get? key = some tracker ↔
      store.trackers.get? key = some tracker ∧ ¬store.Removes readings key tracker := by
  rw [maybeCleanup, Removes]
  split_ifs with hearly
  · exact (and_iff_left fun hremoved => absurd hremoved.1 (not_le.mpr hearly)).symm
  · rw [Dict.get?_filter, Option.filter_eq_some_iff, and_iff_right (not_lt.mp hearly)]
    simp

/-- The index is pruned if a tracker is removed. -/
theorem lineages_maybeCleanup (store : SessionTrackerStore) (readings : CleanupReadings) :
    ((store.maybeCleanup readings).lineages = store.lineages ∧ ∀ key tracker,
      store.trackers.get? key = some tracker → ¬store.Removes readings key tracker) ∨
    (store.maybeCleanup readings).lineages =
        pruneLineages (store.maybeCleanup readings).trackers store.lineages ∧
      ∃ key tracker, store.trackers.get? key = some tracker ∧
        store.Removes readings key tracker := by
  by_cases hearly : readings.now - store.lastCleanup < cleanupInterval
  · rw [maybeCleanup, if_pos hearly]
    exact .inl ⟨rfl, fun key tracker _ hremoved => absurd hremoved.1 (not_le.mpr hearly)⟩
  · rw [maybeCleanup, if_neg hearly]
    dsimp only
    split_ifs with hnone
    · refine .inl ⟨rfl, fun key tracker htracker hremoved => ?_⟩
      refine Dict.size_ne_zero_iff.mpr ⟨key, tracker, ?_⟩ hnone
      rw [Dict.get?_filter, htracker]
      exact Option.filter_some_pos hremoved.2
    · obtain ⟨key, tracker, hexpired⟩ := Dict.size_ne_zero_iff.mp hnone
      rw [Dict.get?_filter] at hexpired
      obtain ⟨htracker, hexpired⟩ := Option.filter_eq_some_iff.mp hexpired
      exact .inr ⟨rfl, key, tracker, htracker, not_lt.mp hearly, hexpired⟩

/-- Every indexed key has a tracker. -/
def IndexedPresent (store : SessionTrackerStore) : Prop :=
  ∀ sessionId key chain, store.chain? sessionId key = some chain →
    ∃ tracker, store.trackers.get? key = some tracker

theorem chain_pruneLineages {trackers : Dict Text PrefixCacheTracker} {lineages : Dict Text Family}
    {key : Text} {chain : Chain} :
    ((pruneLineages trackers lineages).get? sessionId).bind (·.get? key) = some chain ↔
      (lineages.get? sessionId).bind (·.get? key) = some chain ∧
        ∃ tracker, trackers.get? key = some tracker := by
  rw [Option.bind_eq_some_iff, Option.bind_eq_some_iff, pruneLineages, Dict.get?_filter,
    Dict.get?_mapValues]
  constructor
  · rintro ⟨family, hfamily, hchain⟩
    obtain ⟨hfamily, -⟩ := Option.filter_eq_some_iff.mp hfamily
    obtain ⟨old, hold, rfl⟩ := Option.map_eq_some_iff.mp hfamily
    rw [Dict.get?_filter] at hchain
    obtain ⟨hchain, hsome⟩ := Option.filter_eq_some_iff.mp hchain
    exact ⟨⟨old, hold, hchain⟩, Option.isSome_iff_exists.mp hsome⟩
  · rintro ⟨⟨old, hold, hchain⟩, tracker, htracker⟩
    have hkept : (old.filter fun key _ => (trackers.get? key).isSome).get? key = some chain := by
      rw [Dict.get?_filter, hchain, Option.filter_some_pos]
      rw [htracker]
      rfl
    refine ⟨_, Option.filter_eq_some_iff.mpr ⟨by rw [hold]; rfl, ?_⟩, hkept⟩
    exact decide_eq_true (Dict.size_ne_zero_iff.mpr ⟨key, chain, hkept⟩)

/-- A history stays as long as its tracker. -/
theorem chain?_maybeCleanup {store : SessionTrackerStore} (hpresent : store.IndexedPresent)
    {readings : CleanupReadings} {sessionId key : Text} {chain : Chain} :
    (store.maybeCleanup readings).chain? sessionId key = some chain ↔
      store.chain? sessionId key = some chain ∧
        ∃ tracker, (store.maybeCleanup readings).trackers.get? key = some tracker := by
  rcases lineages_maybeCleanup store readings with ⟨hsame, hnothing⟩ | ⟨hpruned, -⟩
  · rw [chain?, hsame]
    refine ⟨fun hchain => ⟨hchain, ?_⟩, fun hchain => hchain.1⟩
    obtain ⟨tracker, htracker⟩ := hpresent sessionId key chain hchain
    exact ⟨tracker, get?_trackers_maybeCleanup.mpr ⟨htracker, hnothing key tracker htracker⟩⟩
  · rw [chain?, hpruned]
    exact chain_pruneLineages

/-- The cleanup does not drop the family of a session id. -/
def KeepsFamily (store : SessionTrackerStore) (sessionId : Text) (readings : CleanupReadings) :
    Prop :=
  (∀ key tracker, store.trackers.get? key = some tracker → ¬store.Removes readings key tracker) ∨
    ∃ key chain tracker, store.chain? sessionId key = some chain ∧
      store.trackers.get? key = some tracker ∧ ¬store.Removes readings key tracker

theorem family_maybeCleanup {readings : CleanupReadings} {family : Family}
    (hfamily : store.lineages.get? sessionId = some family) (hpresent : store.IndexedPresent)
    (hkeeps : store.KeepsFamily sessionId readings) :
    ∃ kept, (store.maybeCleanup readings).lineages.get? sessionId = some kept := by
  rcases hkeeps with hnothing | ⟨key, chain, tracker, hchain, htracker, hkept⟩
  · rcases lineages_maybeCleanup store readings with ⟨hsame, -⟩ | ⟨-, key, tracker, htracker,
      hremoved⟩
    · exact ⟨family, by rw [hsame, hfamily]⟩
    · exact absurd hremoved (hnothing key tracker htracker)
  · have hstays := (chain?_maybeCleanup hpresent).mpr
      ⟨hchain, tracker, get?_trackers_maybeCleanup.mpr ⟨htracker, hkept⟩⟩
    obtain ⟨kept, hfound, -⟩ := chain?_eq_some_iff.mp hstays
    exact ⟨kept, hfound⟩

end SessionTrackerStore

end Legroom.Cache
