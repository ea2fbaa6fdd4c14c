import Mathlib.Data.Finset.Card
import Mathlib.Data.Finset.Dedup
import Legroom.Cache.SessionTrackers

/-!
# Conversations keep their trackers

A request finds the tracker of its own conversation, as long as the cleanup that runs
inside the call does not drop the family under it.
-/

namespace Legroom.Cache

open Python

/-- Conversations are numbered within their session id. -/
structure Conversation where
  sessionId : Text
  number : ℕ
deriving DecidableEq

structure Request where
  conversation : Conversation
  provider : Text
  messages : List Value
  readings : ResolveReadings

namespace Request

/-- The history that is recorded for a request. -/
def snap (request : Request) : Chain := snapshotItems (canonicalizeItems request.messages)

def resolve (request : Request) (store : SessionTrackerStore) :
    PrefixCacheTracker × SessionTrackerStore :=
  store.resolveTracker request.readings request.conversation.sessionId request.provider
    request.messages

/-- The tracker's last request until this one. -/
def activity (request : Request) : ℚ := request.readings.fetch.activity

end Request

/-- What a request got and what it left. -/
structure Served where
  request : Request
  tracker : PrefixCacheTracker
  store : SessionTrackerStore

def serve : SessionTrackerStore → List Request → List Served
  | _, [] => []
  | store, request :: requests =>
      let result := request.resolve store
      ⟨request, result.1, result.2⟩ :: serve result.2 requests

/-! ## Interleavings -/

/-- The readings of one call never go back. -/
structure ResolveReadings.Monotone (readings : ResolveReadings) : Prop where
  first : ∀ key, readings.cleanup.now ≤ readings.cleanup.expiry key
  second : ∀ key, readings.cleanup.expiry key ≤ readings.fetch.cleanup.now
  third : ∀ key, readings.fetch.cleanup.now ≤ readings.fetch.cleanup.expiry key
  fourth : ∀ key, readings.fetch.cleanup.expiry key ≤ readings.fetch.idle
  last : readings.fetch.idle ≤ readings.fetch.activity

/-- A request comes before its conversation was idle for too long. -/
def NoneExpires (ttl : ℚ) : List Request → Prop
  | [] => True
  | request :: requests =>
      (∀ next, requests.find? (·.conversation = request.conversation) = some next →
        next.readings.fetch.idle - request.activity ≤ ttl) ∧ NoneExpires ttl requests

instance decidableNoneExpires (ttl : ℚ) :
    (requests : List Request) → Decidable (NoneExpires ttl requests)
  | [] => .isTrue trivial
  | request :: requests =>
      have := decidableNoneExpires ttl requests
      inferInstanceAs (Decidable ((∀ next ∈ requests.find?
        (·.conversation = request.conversation),
          next.readings.fetch.idle - request.activity ≤ ttl) ∧ NoneExpires ttl requests))

theorem NoneExpires.of_append {ttl : ℚ} {front back : List Request}
    (hexpires : NoneExpires ttl (front ++ back)) : NoneExpires ttl back := by
  induction front with
  | nil => exact hexpires
  | cons request front ih => exact ih hexpires.2

/-- The conversations of a session id. -/
def conversationsOf (sessionId : Text) (requests : List Request) : Finset Conversation :=
  (requests.map Request.conversation).toFinset.filter (·.sessionId = sessionId)

/-- Conversations that only grow, none of which another one begins with. -/
structure Interleaving (config : PrefixFreezeConfig) (requests : List Request) : Prop where
  enabled : config.enabled = true
  /-- A header value has no NUL. -/
  nulFree : ∀ request ∈ requests, nul ∉ request.conversation.sessionId
  nonempty : ∀ request ∈ requests, canonicalizeItems request.messages ≠ []
  appendOnly : requests.Pairwise fun earlier later =>
    earlier.conversation = later.conversation → isChainPrefix earlier.snap later.snap = true
  unrelated : requests.Pairwise fun earlier later =>
    earlier.conversation ≠ later.conversation →
      earlier.conversation.sessionId = later.conversation.sessionId →
        isChainPrefix earlier.snap later.snap = false
  readings : ∀ request ∈ requests, request.readings.Monotone
  clock : requests.Pairwise fun earlier later => earlier.activity ≤ later.readings.cleanup.now
  noneExpires : NoneExpires config.sessionTtlSeconds requests
  belowCap : ∀ sessionId, ((conversationsOf sessionId requests).card : ℤ) ≤
    config.maxLineagesPerSession

/-- The cleanup inside a call never drops the family that the call is using. -/
def Undisturbed : SessionTrackerStore → List Request → Prop
  | _, [] => True
  | store, request :: requests =>
      (store.prepare request.readings.cleanup request.conversation.sessionId).KeepsFamily
          request.conversation.sessionId request.readings.fetch.cleanup ∧
        Undisturbed (request.resolve store).2 requests

/-- The index has what was served, and no key without a tracker. -/
def Served.Recorded (served : Served) : Prop :=
  (∃ key, served.store.chain? served.request.conversation.sessionId key = some served.request.snap ∧
    served.store.trackers.get? key = some served.tracker) ∧ served.store.IndexedPresent

/-- Every conversation has a tracker of its own. -/
def Isolates (config : PrefixFreezeConfig) (start : ℚ) (requests : List Request) : Prop :=
  (∀ served ∈ serve (.new config start) requests, ∀ other ∈ serve (.new config start) requests,
    served.tracker.object = other.tracker.object ↔
      served.request.conversation = other.request.conversation) ∧
    ∀ served ∈ serve (.new config start) requests, served.Recorded

/-! ## The invariant -/

/-- A key of a session id. -/
def IsKey (sessionId : Text) (counter : ℕ) (key : Text) : Prop :=
  key = sessionId ∨ ∃ number < counter, key = lineageKey sessionId number

theorem IsKey.sessionId_eq {sessionId other key : Text} {counter otherCounter : ℕ}
    (hkey : IsKey sessionId counter key) (hother : IsKey other otherCounter key)
    (hsession : nul ∉ sessionId) (hnul : nul ∉ other) : sessionId = other := by
  rcases hkey with rfl | ⟨number, -, rfl⟩
  · rcases hother with rfl | ⟨number, -, heq⟩
    · rfl
    · exact absurd heq.symm (sessionId_of_lineageKey hsession)
  · rcases hother with heq | ⟨otherNumber, -, heq⟩
    · exact absurd heq (sessionId_of_lineageKey hnul)
    · exact (lineageKey_injective hsession hnul heq).1

/-- What the requests so far left, with the objects that they got. -/
structure LineageInvariant (config : PrefixFreezeConfig) (earlier : List (Request × ℕ))
    (rest : List Request) (store : SessionTrackerStore) : Prop where
  config_eq : store.defaultConfig = config
  indexed : ∀ key tracker, store.trackers.get? key = some tracker →
    ∃ sessionId chain, store.chain? sessionId key = some chain
  present : ∀ sessionId key chain, store.chain? sessionId key = some chain →
    IsKey sessionId store.lineageCounter key ∧
      ∃ tracker, store.trackers.get? key = some tracker ∧ ∃ served ∈ earlier,
        served.1.conversation.sessionId = sessionId ∧ served.1.snap = chain ∧
          served.2 = tracker.object
  distinct : ∀ key other tracker found, store.trackers.get? key = some tracker →
    store.trackers.get? other = some found → tracker.object = found.object → key = other
  created : ∀ served ∈ earlier, served.2 < store.created
  owner : ∀ served ∈ earlier, ∀ other ∈ earlier,
    served.2 = other.2 ↔ served.1.conversation = other.1.conversation
  /-- A conversation that goes on is still indexed. -/
  alive : ∀ served ∈ earlier, ∀ next,
    rest.find? (·.conversation = served.1.conversation) = some next →
      ∃ key chain tracker, store.chain? served.1.conversation.sessionId key = some chain ∧
        store.trackers.get? key = some tracker ∧ tracker.object = served.2 ∧
          next.readings.fetch.idle - tracker.lastActivity ≤ config.sessionTtlSeconds

namespace LineageInvariant

variable {config : PrefixFreezeConfig} {earlier : List (Request × ℕ)} {rest : List Request}
  {store : SessionTrackerStore}

theorem indexedPresent (hinvariant : LineageInvariant config earlier rest store) :
    store.IndexedPresent := by
  intro sessionId key chain hchain
  obtain ⟨-, tracker, htracker, -⟩ := hinvariant.present sessionId key chain hchain
  exact ⟨tracker, htracker⟩

theorem initial (config : PrefixFreezeConfig) (start : ℚ) (rest : List Request) :
    LineageInvariant config [] rest (.new config start) where
  config_eq := rfl
  indexed := fun key tracker htracker => by cases htracker
  present := fun sessionId key chain hchain => by cases hchain
  distinct := fun key other tracker found htracker => by cases htracker
  created := fun served hserved => absurd hserved List.not_mem_nil
  owner := fun served hserved => absurd hserved List.not_mem_nil
  alive := fun served hserved => absurd hserved List.not_mem_nil

variable {tracker : PrefixCacheTracker}

/-- A key of a session id that is in use is indexed there. -/
theorem indexed_key (hinvariant : LineageInvariant config earlier rest store)
    (hnul : ∀ served ∈ earlier, nul ∉ served.1.conversation.sessionId) {sessionId key : Text}
    {counter : ℕ} (hsession : nul ∉ sessionId) (hkey : IsKey sessionId counter key)
    (htracker : store.trackers.get? key = some tracker) :
    ∃ chain, store.chain? sessionId key = some chain ∧
      IsKey sessionId store.lineageCounter key := by
  obtain ⟨other, chain, hchain⟩ := hinvariant.indexed key tracker htracker
  obtain ⟨hother, -, -, served, hserved, hservedSession, -⟩ :=
    hinvariant.present other key chain hchain
  have hsame : other = sessionId :=
    hother.sessionId_eq hkey (hservedSession ▸ hnul served hserved) hsession
  exact ⟨chain, hsame ▸ hchain, hsame ▸ hother⟩

/-- A cleanup before the next requests removes nothing that they need. -/
theorem maybeCleanup (hinvariant : LineageInvariant config earlier rest store)
    {readings : CleanupReadings}
    (hreadings : ∀ next ∈ rest, ∀ key, readings.expiry key ≤ next.readings.fetch.idle) :
    LineageInvariant config earlier rest (store.maybeCleanup readings) := by
  have htrackers := @SessionTrackerStore.get?_trackers_maybeCleanup store readings
  have hchains := @SessionTrackerStore.chain?_maybeCleanup store hinvariant.indexedPresent readings
  constructor
  case config_eq => rw [SessionTrackerStore.defaultConfig_maybeCleanup, hinvariant.config_eq]
  case indexed =>
    intro key tracker htracker
    obtain ⟨sessionId, chain, hchain⟩ := hinvariant.indexed key tracker (htrackers.mp htracker).1
    exact ⟨sessionId, chain, hchains.mpr ⟨hchain, tracker, htracker⟩⟩
  case present =>
    intro sessionId key chain hchain
    obtain ⟨hchain, tracker, htracker⟩ := hchains.mp hchain
    obtain ⟨hkey, found, hfound, hserved⟩ := hinvariant.present sessionId key chain hchain
    rw [SessionTrackerStore.lineageCounter_maybeCleanup]
    have heq : tracker = found := Option.some.inj ((htrackers.mp htracker).1.symm.trans hfound)
    exact ⟨hkey, tracker, htracker, heq ▸ hserved⟩
  case distinct =>
    intro key other tracker found htracker hfound
    exact hinvariant.distinct key other tracker found (htrackers.mp htracker).1
      (htrackers.mp hfound).1
  case created => rw [SessionTrackerStore.created_maybeCleanup]; exact hinvariant.created
  case owner => exact hinvariant.owner
  case alive =>
    intro served hserved next hnext
    obtain ⟨key, chain, tracker, hchain, htracker, hobject, hidle⟩ :=
      hinvariant.alive served hserved next hnext
    have hkept : ¬store.Removes readings key tracker := by
      rintro ⟨-, hexpired⟩
      have hlate := hreadings next (List.mem_of_find?_eq_some hnext) key
      rw [PrefixCacheTracker.isExpired, hinvariant.config_eq, decide_eq_true_eq] at hexpired
      exact absurd hidle (not_le.mpr (hexpired.trans_le (sub_le_sub_right hlate _)))
    have hstays := htrackers.mpr ⟨htracker, hkept⟩
    exact ⟨key, chain, tracker, hchains.mpr ⟨hchain, tracker, hstays⟩, hstays, hobject, hidle⟩

/-- An empty family changes nothing, nor does a number that is not used. -/
theorem congr (hinvariant : LineageInvariant config earlier rest store)
    {next : SessionTrackerStore} (hconfig : next.defaultConfig = store.defaultConfig)
    (htrackers : next.trackers = store.trackers)
    (hchains : ∀ sessionId key, next.chain? sessionId key = store.chain? sessionId key)
    (hcounter : store.lineageCounter ≤ next.lineageCounter)
    (hcreated : next.created = store.created) : LineageInvariant config earlier rest next := by
  constructor
  case config_eq => rw [hconfig, hinvariant.config_eq]
  case indexed =>
    intro key tracker htracker
    rw [htrackers] at htracker
    obtain ⟨sessionId, chain, hchain⟩ := hinvariant.indexed key tracker htracker
    exact ⟨sessionId, chain, by rw [hchains, hchain]⟩
  case present =>
    intro sessionId key chain hchain
    rw [hchains] at hchain
    obtain ⟨hkey, hserved⟩ := hinvariant.present sessionId key chain hchain
    rw [htrackers]
    refine ⟨hkey.imp_right ?_, hserved⟩
    rintro ⟨number, hnumber, rfl⟩
    exact ⟨number, hnumber.trans_le hcounter, rfl⟩
  case distinct => rw [htrackers]; exact hinvariant.distinct
  case created => rw [hcreated]; exact hinvariant.created
  case owner => exact hinvariant.owner
  case alive =>
    intro served hserved after hafter
    obtain ⟨key, chain, tracker, hchain, htracker⟩ := hinvariant.alive served hserved after hafter
    rw [htrackers]
    exact ⟨key, chain, tracker, by rw [hchains, hchain], htracker⟩

/-- A request gets a tracker that is its own, and its history is indexed. -/
theorem record {request : Request}
    (hinvariant : LineageInvariant config earlier (request :: rest) store) {key : Text}
    {family : Family} {created : ℕ}
    (hnul : ∀ served ∈ earlier, nul ∉ served.1.conversation.sessionId)
    (hrequest : nul ∉ request.conversation.sessionId)
    (hnext : ∀ next, rest.find? (·.conversation = request.conversation) = some next →
      next.readings.fetch.idle - tracker.lastActivity ≤ config.sessionTtlSeconds)
    (hkey : IsKey request.conversation.sessionId store.lineageCounter key)
    (hfamily : store.lineages.get? request.conversation.sessionId = some family)
    (hown : ∀ other found, store.trackers.get? other = some found →
      (found.object = tracker.object ↔ other = key))
    (howner : ∀ served ∈ earlier,
      served.2 = tracker.object ↔ served.1.conversation = request.conversation)
    (hcreated : store.created ≤ created) (hobject : tracker.object < created) :
    LineageInvariant config (earlier ++ [(request, tracker.object)]) rest
        { store with
          trackers := store.trackers.set key tracker
          lineages := store.lineages.set request.conversation.sessionId
            (family.set key request.snap)
          created := created } := by
  have hchains : ∀ sessionId other, SessionTrackerStore.chain?
      { store with
        trackers := store.trackers.set key tracker
        lineages := store.lineages.set request.conversation.sessionId
          (family.set key request.snap)
        created := created } sessionId other =
      if sessionId = request.conversation.sessionId ∧ other = key then some request.snap
      else store.chain? sessionId other := by
    intro sessionId other
    rw [SessionTrackerStore.chain?, SessionTrackerStore.chain?, Dict.get?_set]
    by_cases hsession : sessionId = request.conversation.sessionId
    · rw [if_pos hsession, hsession, hfamily]
      simp only [Option.bind_some, true_and]
      exact Dict.get?_set family key other request.snap
    · rw [if_neg hsession, if_neg (fun hboth => hsession hboth.1)]
  constructor
  case config_eq => exact hinvariant.config_eq
  case indexed =>
    intro other found hfound
    rw [Dict.get?_set] at hfound
    by_cases hother : other = key
    · exact ⟨request.conversation.sessionId, request.snap, by rw [hchains, if_pos ⟨rfl, hother⟩]⟩
    · rw [if_neg hother] at hfound
      obtain ⟨sessionId, chain, hchain⟩ := hinvariant.indexed other found hfound
      exact ⟨sessionId, chain, by rw [hchains, if_neg (fun hboth => hother hboth.2), hchain]⟩
  case present =>
    intro sessionId other chain hchain
    rw [hchains] at hchain
    split_ifs at hchain with hsame
    · obtain ⟨rfl, rfl⟩ := hsame
      refine ⟨hkey, tracker, by rw [Dict.get?_set, if_pos rfl], (request, tracker.object),
        List.mem_append_right _ List.mem_cons_self, rfl, Option.some.inj hchain, rfl⟩
    · obtain ⟨hother, found, hfound, served, hserved, hsession, hrest⟩ :=
        hinvariant.present sessionId other chain hchain
      have hne : other ≠ key := by
        rintro rfl
        have hsessions := hother.sessionId_eq hkey (hsession ▸ hnul served hserved) hrequest
        exact hsame ⟨hsessions, rfl⟩
      exact ⟨hother, found, by rw [Dict.get?_set, if_neg hne, hfound], served,
        List.mem_append_left _ hserved, hsession, hrest⟩
  case distinct =>
    intro first second found other hfirst hsecond hobjects
    rw [Dict.get?_set] at hfirst hsecond
    split_ifs at hfirst hsecond with hleft hright hright
    · rw [hleft, hright]
    · rw [hleft]
      rw [← Option.some.inj hfirst] at hobjects
      exact ((hown second other hsecond).mp hobjects.symm).symm
    · rw [hright]
      rw [← Option.some.inj hsecond] at hobjects
      exact (hown first found hfirst).mp hobjects
    · exact hinvariant.distinct first second found other hfirst hsecond hobjects
  case created =>
    intro served hserved
    rcases List.mem_append.mp hserved with hserved | hserved
    · exact (hinvariant.created served hserved).trans_le hcreated
    · rw [List.mem_singleton.mp hserved]
      exact hobject
  case owner =>
    intro served hserved other hother
    rcases List.mem_append.mp hserved with hserved | hserved
    · rcases List.mem_append.mp hother with hother | hother
      · exact hinvariant.owner served hserved other hother
      · rw [List.mem_singleton.mp hother]
        exact howner served hserved
    · rw [List.mem_singleton.mp hserved]
      rcases List.mem_append.mp hother with hother | hother
      · rw [eq_comm, eq_comm (a := request.conversation)]
        exact howner other hother
      · rw [List.mem_singleton.mp hother]
        exact iff_of_true rfl rfl
  case alive =>
    intro served hserved next hfind
    have hserved' : served.2 = tracker.object ↔ served.1.conversation = request.conversation := by
      rcases List.mem_append.mp hserved with hserved | hserved
      · exact howner served hserved
      · rw [List.mem_singleton.mp hserved]
        exact iff_of_true rfl rfl
    by_cases hconversation : served.1.conversation = request.conversation
    · rw [hconversation] at hfind ⊢
      exact ⟨key, request.snap, tracker, by rw [hchains, if_pos ⟨rfl, rfl⟩],
        by rw [Dict.get?_set, if_pos rfl], (hserved'.mpr hconversation).symm, hnext next hfind⟩
    · have hearlier : served ∈ earlier := by
        rcases List.mem_append.mp hserved with hserved | hserved
        · exact hserved
        · rw [List.mem_singleton.mp hserved] at hconversation
          exact absurd rfl hconversation
      have hlater : (request :: rest).find? (·.conversation = served.1.conversation) = some next := by
        rw [List.find?_cons_of_neg (by simpa using Ne.symm hconversation)]
        exact hfind
      obtain ⟨other, chain, found, hchain, hfound, hfoundObject, hidle⟩ :=
        hinvariant.alive served hearlier next hlater
      have hne : other ≠ key := fun hother =>
        hconversation (hserved'.mp (hfoundObject ▸ (hown other found hfound).mpr hother))
      exact ⟨other, chain, found, by rw [hchains, if_neg (fun hboth => hne hboth.2), hchain],
        by rw [Dict.get?_set, if_neg hne, hfound], hfoundObject, hidle⟩

end LineageInvariant

/-! ## One request -/

variable (store : SessionTrackerStore)

theorem chain?_prepare (readings : CleanupReadings) (sessionId other key : Text) :
    (store.prepare readings sessionId).chain? other key =
      (store.maybeCleanup readings).chain? other key := by
  rw [SessionTrackerStore.chain?, SessionTrackerStore.chain?, SessionTrackerStore.prepare,
    Dict.get?_setDefault]
  split_ifs with hother
  · rw [hother]
    cases (store.maybeCleanup readings).lineages.get? sessionId with
    | some family => rfl
    | none => rfl
  · rfl

/-- The lineage is looked for in a family. -/
theorem family_prepare (readings : CleanupReadings) (sessionId : Text) :
    ∃ family, (store.prepare readings sessionId).lineages.get? sessionId = some family ∧
      ∀ key, family.get? key = (store.prepare readings sessionId).chain? sessionId key := by
  have hfamily := Dict.get?_setDefault (store.maybeCleanup readings).lineages sessionId sessionId
    (.empty : Family)
  rw [if_pos rfl] at hfamily
  refine ⟨_, hfamily, fun key => ?_⟩
  rw [SessionTrackerStore.chain?, SessionTrackerStore.prepare, hfamily]
  rfl

/-- What a request leaves. -/
def Leaves (config : PrefixFreezeConfig) (earlier : List (Request × ℕ)) (rest : List Request)
    (request : Request) (result : PrefixCacheTracker × SessionTrackerStore) : Prop :=
  LineageInvariant config (earlier ++ [(request, result.1.object)]) rest result.2 ∧
    ∃ key, result.2.chain? request.conversation.sessionId key = some request.snap ∧
      result.2.trackers.get? key = some result.1

variable {config : PrefixFreezeConfig} {earlier : List (Request × ℕ)} {rest : List Request}
  {store : SessionTrackerStore} {request : Request}

/-- The request fetches a tracker for a key of its own, or creates one. -/
theorem leaves_stamp {key provider : Text}
    (hinvariant : LineageInvariant config earlier (request :: rest)
      (store.maybeCleanup request.readings.fetch.cleanup))
    (hinterleaving : Interleaving config (earlier.map Prod.fst ++ request :: rest))
    (hkey : IsKey request.conversation.sessionId
      (store.maybeCleanup request.readings.fetch.cleanup).lineageCounter key)
    (hfamily : ∃ family, (store.maybeCleanup request.readings.fetch.cleanup).lineages.get?
      request.conversation.sessionId = some family)
    (hfetched : match (store.maybeCleanup request.readings.fetch.cleanup).trackers.get? key with
      | some found => ∃ served ∈ earlier,
          served.2 = found.object ∧ served.1.conversation = request.conversation
      | none => ∀ served ∈ earlier, served.1.conversation ≠ request.conversation) :
    Leaves config earlier rest request
      (SessionTrackerStore.stamp request.conversation.sessionId key request.snap
        (store.getOrCreate request.readings.fetch key provider)) := by
  obtain ⟨family, hfamily⟩ := hfamily
  have hrequest := hinterleaving.nulFree request
    (List.mem_append_right _ List.mem_cons_self)
  have hnul : ∀ served ∈ earlier, nul ∉ served.1.conversation.sessionId := fun served hserved =>
    hinterleaving.nulFree served.1 (List.mem_append_left _ (List.mem_map_of_mem hserved))
  have hnext : ∀ next, rest.find? (·.conversation = request.conversation) = some next →
      next.readings.fetch.idle - request.activity ≤ config.sessionTtlSeconds := by
    exact hinterleaving.noneExpires.of_append.1
  generalize hclean : store.maybeCleanup request.readings.fetch.cleanup = clean at *
  -- Both ways to a tracker end alike.
  have hleaves : ∀ (tracker : PrefixCacheTracker) (created : ℕ),
      tracker.lastActivity = request.activity →
      (∀ other found, clean.trackers.get? other = some found →
        (found.object = tracker.object ↔ other = key)) →
      (∀ served ∈ earlier,
        served.2 = tracker.object ↔ served.1.conversation = request.conversation) →
      clean.created ≤ created → tracker.object < created →
      Leaves config earlier rest request (SessionTrackerStore.stamp
        request.conversation.sessionId key request.snap
          (tracker, { clean with trackers := clean.trackers.set key tracker, created := created })) := by
    intro tracker created hactivity hown howner hcreated hobject
    rw [SessionTrackerStore.stamp]
    dsimp only
    rw [hfamily]
    refine ⟨hinvariant.record hnul hrequest (hactivity ▸ hnext) hkey hfamily hown howner hcreated
      hobject, key, ?_, ?_⟩
    · rw [SessionTrackerStore.chain?, Dict.get?_set, if_pos rfl, Option.bind_some, Dict.get?_set,
        if_pos rfl]
    · rw [Dict.get?_set, if_pos rfl]
  cases hfound : clean.trackers.get? key with
  | some found =>
      rw [hfound] at hfetched
      obtain ⟨owned, howned, hobject, hconversation⟩ := hfetched
      rw [SessionTrackerStore.getOrCreate_of_found (hclean ▸ hfound), hclean]
      refine hleaves _ clean.created rfl (fun other tracker htracker => ?_)
        (fun served hserved => ?_) le_rfl ?_
      · constructor
        · exact fun hsame => hinvariant.distinct other key tracker found htracker hfound hsame
        · rintro rfl
          rw [Option.some.inj (htracker.symm.trans hfound)]
      · rw [← hconversation, ← hinvariant.owner served hserved owned howned, hobject]
      · exact hobject ▸ hinvariant.created owned howned
  | none =>
      rw [hfound] at hfetched
      have hold : ∀ other tracker, clean.trackers.get? other = some tracker →
          tracker.object < clean.created := by
        intro other tracker htracker
        obtain ⟨sessionId, chain, hchain⟩ := hinvariant.indexed other tracker htracker
        obtain ⟨-, found, hother, served, hserved, -, -, hobject⟩ :=
          hinvariant.present sessionId other chain hchain
        rw [Option.some.inj (htracker.symm.trans hother), ← hobject]
        exact hinvariant.created served hserved
      rw [SessionTrackerStore.getOrCreate_of_none (hclean ▸ hfound), hclean]
      refine hleaves _ (clean.created + 1) rfl (fun other tracker htracker => ?_)
        (fun served hserved => ?_) (Nat.le_succ _) (Nat.lt_succ_self _)
      · refine iff_of_false (hold other tracker htracker).ne ?_
        rintro rfl
        rw [hfound] at htracker
        cases htracker
      · exact iff_of_false (hinvariant.created served hserved).ne (hfetched served hserved)

/-- There is room for a conversation that is new. -/
theorem size_lt_of_new {remaining : List Request} (rest : List Request) {family : Family}
    (hinvariant : LineageInvariant config earlier remaining store)
    (hnew : ∀ served ∈ earlier, served.1.conversation ≠ request.conversation)
    (hfamily : store.lineages.get? request.conversation.sessionId = some family) :
    family.size < (conversationsOf request.conversation.sessionId
      (earlier.map Prod.fst ++ request :: rest)).card := by
  have hmem : request.conversation ∈ conversationsOf request.conversation.sessionId
      (earlier.map Prod.fst ++ request :: rest) := by
    refine Finset.mem_filter.mpr ⟨List.mem_toFinset.mpr (List.mem_map_of_mem ?_), rfl⟩
    exact List.mem_append_right _ List.mem_cons_self
  have hserved : ∀ key ∈ family.keys, ∃ conversation ∈ (conversationsOf
      request.conversation.sessionId (earlier.map Prod.fst ++ request :: rest)).erase
        request.conversation,
      ∃ tracker, store.trackers.get? key = some tracker ∧ ∃ served ∈ earlier,
        served.1.conversation = conversation ∧ served.2 = tracker.object := by
    intro key hkey
    obtain ⟨chain, hchain⟩ := Dict.mem_keys_iff.mp hkey
    obtain ⟨-, tracker, htracker, served, hserved, hsession, -, hobject⟩ := hinvariant.present _ key
      chain (SessionTrackerStore.chain?_eq_some_iff.mpr ⟨family, hfamily, hchain⟩)
    refine ⟨served.1.conversation, Finset.mem_erase.mpr ⟨hnew served hserved, ?_⟩, tracker, htracker,
      served, hserved, rfl, hobject⟩
    refine Finset.mem_filter.mpr ⟨List.mem_toFinset.mpr (List.mem_map_of_mem ?_), hsession⟩
    exact List.mem_append_left _ (List.mem_map_of_mem hserved)
  have : Nonempty Conversation := ⟨request.conversation⟩
  choose! owner howner htrackers using hserved
  have hinjective : Set.InjOn owner (family.keys.toFinset : Set Text) := by
    intro key hkey other hother hsame
    obtain ⟨tracker, htracker, served, hserved, hconversation, hobject⟩ :=
      htrackers key (List.mem_toFinset.mp hkey)
    obtain ⟨found, hfound, second, hsecond, hsecondConversation, hsecondObject⟩ :=
      htrackers other (List.mem_toFinset.mp hother)
    refine hinvariant.distinct key other tracker found htracker hfound ?_
    rw [← hobject, ← hsecondObject, hinvariant.owner served hserved second hsecond, hconversation,
      hsecondConversation, hsame]
  calc
    family.size = family.keys.toFinset.card := by
      rw [Dict.keys, List.toFinset_card_of_nodup family.nodup, List.length_map]
      rfl
    _ ≤ ((conversationsOf request.conversation.sessionId
        (earlier.map Prod.fst ++ request :: rest)).erase request.conversation).card :=
      Finset.card_le_card_of_injOn owner
        (fun key hkey => howner key (List.mem_toFinset.mp hkey)) hinjective
    _ < _ := Finset.card_erase_lt_of_mem hmem

/-- The readings of a call come before the fetches that follow. -/
theorem Interleaving.readings_le {before : List Request}
    (hinterleaving : Interleaving config (before ++ request :: rest)) :
    ∀ next ∈ request :: rest, ∀ key,
      request.readings.cleanup.expiry key ≤ next.readings.fetch.idle ∧
        request.readings.fetch.cleanup.expiry key ≤ next.readings.fetch.idle := by
  intro next hnext key
  have hown := hinterleaving.readings request (List.mem_append_right _ List.mem_cons_self)
  have hfirst := ((hown.second key).trans (hown.third key)).trans (hown.fourth key)
  rcases List.mem_cons.mp hnext with rfl | hlater
  · exact ⟨hfirst, hown.fourth key⟩
  · have hmonotone := hinterleaving.readings next
      (List.mem_append_right _ (List.mem_cons_of_mem request hlater))
    have hclock := List.rel_of_pairwise_cons
      (List.pairwise_append.mp hinterleaving.clock).2.1 hlater
    have hlast := (((hmonotone.first key).trans (hmonotone.second key)).trans
      (hmonotone.third key)).trans (hmonotone.fourth key)
    have hnextIdle := (hown.last.trans hclock).trans hlast
    exact ⟨hfirst.trans hnextIdle, (hown.fourth key).trans hnextIdle⟩

/-- A request leaves what it should if its family is kept. -/
theorem resolve_leaves (hinvariant : LineageInvariant config earlier (request :: rest) store)
    (hinterleaving : Interleaving config (earlier.map Prod.fst ++ request :: rest))
    (hkeeps : (store.prepare request.readings.cleanup
      request.conversation.sessionId).KeepsFamily request.conversation.sessionId
        request.readings.fetch.cleanup) :
    Leaves config earlier rest request (request.resolve store) := by
  have hmem : request ∈ earlier.map Prod.fst ++ request :: rest :=
    List.mem_append_right _ List.mem_cons_self
  have hnul : ∀ served ∈ earlier, nul ∉ served.1.conversation.sessionId := fun served hserved =>
    hinterleaving.nulFree served.1 (List.mem_append_left _ (List.mem_map_of_mem hserved))
  have hbefore : ∀ served ∈ earlier, served.1 ∈ earlier.map Prod.fst := fun served hserved =>
    List.mem_map_of_mem hserved
  have hreadings := hinterleaving.readings_le
  have hprepared : LineageInvariant config earlier (request :: rest)
      (store.prepare request.readings.cleanup request.conversation.sessionId) :=
    (hinvariant.maybeCleanup fun next hnext key => (hreadings next hnext key).1).congr rfl rfl
      (chain?_prepare store _ _) le_rfl rfl
  obtain ⟨family, hfamily, hchains⟩ := family_prepare store request.readings.cleanup
    request.conversation.sessionId
  have hnonempty := hinterleaving.nonempty request hmem
  have hmessages : request.messages ≠ [] := fun hempty => hnonempty (by rw [hempty]; rfl)
  rw [Request.resolve, SessionTrackerStore.resolveTracker]
  dsimp only
  rw [if_neg (by simp [hmessages, hinvariant.config_eq, hinterleaving.enabled]),
    if_neg (by simpa using hnonempty), hfamily, Option.getD_some]
  rw [show snapshotItems (canonicalizeItems request.messages) = request.snap from rfl]
  generalize store.prepare request.readings.cleanup request.conversation.sessionId = prepared at *
  have hcleaned := hprepared.maybeCleanup fun next hnext key => (hreadings next hnext key).2
  cases hbest : bestLineage family request.snap with
  | some key =>
      obtain ⟨chain, hchain, hmatches⟩ := bestLineage_mem hbest
      rw [hchains] at hchain
      obtain ⟨-, found, hfound, served, hserved, hsession, hsnap, hobject⟩ :=
        hprepared.present _ key chain hchain
      have hconversation : served.1.conversation = request.conversation := by
        by_contra hother
        have hunrelated := (List.pairwise_append.mp hinterleaving.unrelated).2.2 served.1
          (hbefore served hserved) request List.mem_cons_self hother hsession
        rw [hsnap, hmatches] at hunrelated
        cases hunrelated
      obtain ⟨kept, keptChain, tracker, hkept, htracker, hsame, -⟩ :=
        hcleaned.alive served hserved request (by rw [List.find?_cons_of_pos (by simp [hconversation])])
      have hkey : kept = key := hprepared.distinct kept key tracker found
        (SessionTrackerStore.get?_trackers_maybeCleanup.mp htracker).1 hfound (hsame.trans hobject)
      subst hkey
      rw [hconversation] at hkept
      refine leaves_stamp hcleaned hinterleaving (hcleaned.present _ kept keptChain hkept).1 ?_ ?_
      · obtain ⟨keptFamily, hkeptFamily, -⟩ := SessionTrackerStore.chain?_eq_some_iff.mp hkept
        exact ⟨keptFamily, hkeptFamily⟩
      · rw [htracker]
        exact ⟨served, hserved, hsame.symm, hconversation⟩
  | none =>
      -- A conversation that was served before would have been found.
      have hnew : ∀ served ∈ earlier, served.1.conversation ≠ request.conversation := by
        intro served hserved hconversation
        obtain ⟨key, chain, tracker, hchain, htracker, hobject, -⟩ := hprepared.alive served hserved
          request (by rw [List.find?_cons_of_pos (by simp [hconversation])])
        obtain ⟨-, found, hfound, other, hother, -, hsnap, hotherObject⟩ :=
          hprepared.present _ key chain hchain
        have hsame : other.1.conversation = request.conversation := by
          rw [← hconversation, ← hprepared.owner other hother served hserved, hotherObject, ← hobject,
            Option.some.inj (hfound.symm.trans htracker)]
        have hmatches := (List.pairwise_append.mp hinterleaving.appendOnly).2.2 other.1
          (hbefore other hother) request List.mem_cons_self hsame
        rw [hsnap] at hmatches
        rw [hconversation, ← hchains] at hchain
        have hsome := bestLineage_isSome hchain hmatches
        rw [hbest] at hsome
        cases hsome
      have hroom := size_lt_of_new rest hprepared hnew hfamily
      have hcap := hinterleaving.belowCap request.conversation.sessionId
      rw [if_neg (by rw [hprepared.config_eq]; omega)]
      have hrequest := hinterleaving.nulFree request hmem
      split_ifs with hempty
      · have hbare : IsKey request.conversation.sessionId 0 request.conversation.sessionId :=
          .inl rfl
        refine leaves_stamp hcleaned hinterleaving (.inl rfl)
          (SessionTrackerStore.family_maybeCleanup hfamily hprepared.indexedPresent hkeeps) ?_
        cases hfetched : (prepared.maybeCleanup request.readings.fetch.cleanup).trackers.get?
            request.conversation.sessionId with
        | none => exact hnew
        | some tracker =>
            obtain ⟨chain, hchain, -⟩ := hprepared.indexed_key hnul hrequest hbare
              (SessionTrackerStore.get?_trackers_maybeCleanup.mp hfetched).1
            rw [← hchains] at hchain
            exact absurd hempty (Dict.size_ne_zero_iff.mpr ⟨_, chain, hchain⟩)
      · have hnumbered : LineageInvariant config earlier (request :: rest)
            { prepared with lineageCounter := prepared.lineageCounter + 1 } :=
          hprepared.congr rfl rfl (fun _ _ => rfl) (Nat.le_succ _) rfl
        have hkey : IsKey request.conversation.sessionId (prepared.lineageCounter + 1)
            (lineageKey request.conversation.sessionId prepared.lineageCounter) :=
          .inr ⟨prepared.lineageCounter, Nat.lt_succ_self _, rfl⟩
        refine leaves_stamp
          (hnumbered.maybeCleanup fun next hnext key => (hreadings next hnext key).2) hinterleaving
          (by rwa [SessionTrackerStore.lineageCounter_maybeCleanup])
          (SessionTrackerStore.family_maybeCleanup hfamily hnumbered.indexedPresent hkeeps) ?_
        cases hfetched : (SessionTrackerStore.maybeCleanup
            { prepared with lineageCounter := prepared.lineageCounter + 1 }
              request.readings.fetch.cleanup).trackers.get?
                (lineageKey request.conversation.sessionId prepared.lineageCounter) with
        | none => exact hnew
        | some tracker =>
            obtain ⟨-, -, hused⟩ := hprepared.indexed_key hnul hrequest hkey
              (SessionTrackerStore.get?_trackers_maybeCleanup.mp hfetched).1
            rcases hused with hbare | ⟨number, hnumber, hsame⟩
            · exact absurd hbare (sessionId_of_lineageKey hrequest)
            · exact absurd (lineageKey_injective hrequest hrequest hsame).2 hnumber.ne'

/-! ## Runs -/

theorem serve_leaves {requests : List Request}
    (hinvariant : LineageInvariant config earlier requests store)
    (hinterleaving : Interleaving config (earlier.map Prod.fst ++ requests))
    (hundisturbed : Undisturbed store requests) :
    (∃ final, LineageInvariant config (earlier ++ (serve store requests).map fun served =>
        (served.request, served.tracker.object)) [] final) ∧
      ∀ served ∈ serve store requests, served.Recorded := by
  induction requests generalizing earlier store with
  | nil =>
      refine ⟨⟨store, ?_⟩, fun served hserved => absurd hserved List.not_mem_nil⟩
      rw [serve, List.map_nil, List.append_nil]
      exact hinvariant
  | cons request requests ih =>
      obtain ⟨hkeeps, hrest⟩ := hundisturbed
      obtain ⟨hleft, key, hchain, htracker⟩ := resolve_leaves hinvariant hinterleaving hkeeps
      obtain ⟨⟨final, hfinal⟩, hrecorded⟩ := ih hleft
        (by rwa [List.map_append, List.append_assoc]) hrest
      refine ⟨⟨final, ?_⟩, List.forall_mem_cons.mpr
        ⟨⟨⟨key, hchain, htracker⟩, hleft.indexedPresent⟩, hrecorded⟩⟩
      rw [List.append_assoc] at hfinal
      exact hfinal

/-- Conversations are isolated in every run in which no family is dropped while it is
being used. -/
theorem isolates_of_undisturbed (config : PrefixFreezeConfig) (start : ℚ)
    (requests : List Request) (hinterleaving : Interleaving config requests)
    (hundisturbed : Undisturbed (.new config start) requests) :
    Isolates config start requests := by
  obtain ⟨⟨final, hfinal⟩, hrecorded⟩ := serve_leaves
    (LineageInvariant.initial config start requests) hinterleaving hundisturbed
  refine ⟨fun served hserved other hother => ?_, hrecorded⟩
  exact hfinal.owner _ (List.mem_map_of_mem hserved) _ (List.mem_map_of_mem hother)

/-! ## A family that is dropped -/

def defaultPrefixFreezeConfig : PrefixFreezeConfig := ⟨true, 1024, 600, 32⟩

/-- A request with the two readings at which a cleanup may run. -/
def requestAt (sessionId : String) (number turns : ℕ) (first second : ℚ) : Request where
  conversation := ⟨text sessionId, number⟩
  provider := text "anthropic"
  messages := (List.range (turns + 1)).map fun turn =>
    .dict [(text "content", .list [.number (.int number), .number (.int turn)])]
  readings := ⟨⟨first, fun _ => first⟩, ⟨⟨second, fun _ => second⟩, second, second⟩⟩

theorem requestAt_monotone (sessionId : String) (number turns : ℕ) {first second : ℚ}
    (hreadings : first ≤ second) :
    (requestAt sessionId number turns first second).readings.Monotone :=
  ⟨fun _ => le_rfl, fun _ => hreadings, fun _ => le_rfl, fun _ => le_rfl, le_rfl⟩

theorem card_conversationsOf_le (sessionId : Text) (requests : List Request) :
    (conversationsOf sessionId requests).card ≤ requests.length := by
  calc
    (conversationsOf sessionId requests).card
      ≤ (requests.map Request.conversation).toFinset.card := Finset.card_filter_le _ _
    _ ≤ (requests.map Request.conversation).length := List.toFinset_card_le _
    _ = requests.length := List.length_map _

/-- Two conversations that take turns. -/
def turnsOfTwo : List Request :=
  [requestAt "a" 0 0 1 2, requestAt "a" 1 0 3 4, requestAt "a" 0 1 5 6, requestAt "a" 1 1 7 8]

theorem isolates_turnsOfTwo : Isolates defaultPrefixFreezeConfig 0 turnsOfTwo := by
  refine isolates_of_undisturbed defaultPrefixFreezeConfig 0 turnsOfTwo ?_ ?_
  · constructor
    case enabled => rfl
    case nulFree => decide +kernel
    case nonempty =>
      simp only [turnsOfTwo, List.forall_mem_cons]
      exact ⟨List.cons_ne_nil _ _, List.cons_ne_nil _ _, List.cons_ne_nil _ _,
        List.cons_ne_nil _ _, fun _ hnone => absurd hnone List.not_mem_nil⟩
    case appendOnly => decide +kernel
    case unrelated => decide +kernel
    case readings =>
      simp only [turnsOfTwo, List.forall_mem_cons]
      exact ⟨requestAt_monotone _ _ _ (by decide), requestAt_monotone _ _ _ (by decide),
        requestAt_monotone _ _ _ (by decide), requestAt_monotone _ _ _ (by decide),
        fun _ hnone => absurd hnone List.not_mem_nil⟩
    case clock => decide +kernel
    case noneExpires => decide +kernel
    case belowCap =>
      intro sessionId
      exact (Int.ofNat_le.mpr (card_conversationsOf_le sessionId turnsOfTwo)).trans (by decide)
  · exact ⟨.inl fun _ _ _ hremoved => absurd hremoved.1 (by decide +kernel),
      .inl fun _ _ _ hremoved => absurd hremoved.1 (by decide +kernel),
      .inl fun _ _ _ hremoved => absurd hremoved.1 (by decide +kernel),
      .inl fun _ _ _ hremoved => absurd hremoved.1 (by decide +kernel), trivial⟩

/-- The third request begins just before a cleanup is due and goes on just after. -/
def disturbedRequests : List Request :=
  [requestAt "a" 0 0 1 1, requestAt "b" 0 0 590 590, requestAt "c" 0 0 649 650,
    requestAt "c" 1 0 651 651]

theorem disturbed_not_isolated : Interleaving defaultPrefixFreezeConfig disturbedRequests ∧
    ¬Isolates defaultPrefixFreezeConfig 0 disturbedRequests := by
  constructor
  · constructor
    case enabled => rfl
    case nulFree => decide +kernel
    case nonempty =>
      simp only [disturbedRequests, List.forall_mem_cons]
      exact ⟨List.cons_ne_nil _ _, List.cons_ne_nil _ _, List.cons_ne_nil _ _,
        List.cons_ne_nil _ _, fun _ hnone => absurd hnone List.not_mem_nil⟩
    case appendOnly => decide +kernel
    case unrelated => decide +kernel
    case readings =>
      simp only [disturbedRequests, List.forall_mem_cons]
      exact ⟨requestAt_monotone _ _ _ (by decide), requestAt_monotone _ _ _ (by decide),
        requestAt_monotone _ _ _ (by decide), requestAt_monotone _ _ _ (by decide),
        fun _ hnone => absurd hnone List.not_mem_nil⟩
    case clock => decide +kernel
    case noneExpires => decide +kernel
    case belowCap =>
      intro sessionId
      exact (Int.ofNat_le.mpr (card_conversationsOf_le sessionId disturbedRequests)).trans
        (by decide)
  · rintro ⟨hobjects, -⟩
    -- The last two requests are of two conversations.
    have hthird : 2 < (serve (.new defaultPrefixFreezeConfig 0) disturbedRequests).length := by
      decide +kernel
    have hfourth : 3 < (serve (.new defaultPrefixFreezeConfig 0) disturbedRequests).length := by
      decide +kernel
    have hsame := (hobjects _ (List.getElem_mem hthird) _ (List.getElem_mem hfourth)).mp
      (by decide +kernel +revert)
    exact absurd hsame (by decide +kernel +revert)

end Legroom.Cache
