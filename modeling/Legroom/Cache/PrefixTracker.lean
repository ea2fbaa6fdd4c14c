import Legroom.Lib.Python.Value
import Mathlib.Data.List.Forall2

/-!
# Prefix cache tracker

What was forwarded last turn is what the provider has cached.  It is replayed for the
leading messages whose originals are still the same.
-/

namespace Legroom.Cache

open Python

/-! ## Comparison -/

/-- The keys that mean nothing to the model. -/
def nonSemanticKeys : List Text :=
  ["cache_control", "cachePoint", "caller", "provider_specific_fields", "reasoning_content",
    "reasoning_items", "annotations", "system_fingerprint", "service_tier", "providerMetadata",
    "providerOptions", "callProviderMetadata", "state", "providerExecuted", "synthetic", "ignored",
    "index"].map text

/-- The keys of tool payloads, which are compared as they are. -/
def opaquePayloadKeys : List Text := ["input", "arguments", "json"].map text

/-- A text as a block. -/
def textBlocks (value : Text) : Value :=
  .list [.dict [(text "type", .str (text "text")), (text "text", .str value)]]

def isEmptyDict : Value → Bool
  | .dict [] => true
  | _ => false

mutual

/-- What two encodings of one message have in common. -/
def canonicalizeForPrefixCompare : Value → Value
  | .dict entries => .dict (canonicalizeEntries entries)
  | .list items => .list (canonicalizeItems items)
  | value => value

/-- Items of which nothing is left are dropped. -/
def canonicalizeItems : List Value → List Value
  | [] => []
  | item :: items =>
      let canon := canonicalizeForPrefixCompare item
      if isEmptyDict canon then canonicalizeItems items else canon :: canonicalizeItems items

def canonicalizeEntries : List (Text × Value) → List (Text × Value)
  | [] => []
  | (key, value) :: entries =>
      if key ∈ nonSemanticKeys then canonicalizeEntries entries
      else if key ∈ opaquePayloadKeys then (key, value) :: canonicalizeEntries entries
      else
        let canon :=
          match value with
          | .str content =>
              if key = text "content" then textBlocks content else .str content
          | value => canonicalizeForPrefixCompare value
        (key, canon) :: canonicalizeEntries entries

end

/-- Two messages differ in annotations only. -/
def canonicallySame (current previous : Value) : Bool :=
  (canonicalizeForPrefixCompare current).same (canonicalizeForPrefixCompare previous)

/-! ## Replay -/

/-- The number of leading messages that are still the same. -/
def sameLeading : List Value → List Value → ℕ
  | current :: currents, previous :: previouses =>
      if canonicallySame current previous then sameLeading currents previouses + 1 else 0
  | _, _ => 0

def overlayCachedPrefix (optimizedMessages currentOriginalMessages previousOriginalMessages
    previousForwardedMessages : List Value) : List Value :=
  if previousOriginalMessages.isEmpty || previousForwardedMessages.isEmpty then optimizedMessages
  else if previousForwardedMessages.length ≠ previousOriginalMessages.length then optimizedMessages
  else
    let limit := min previousOriginalMessages.length
      (min currentOriginalMessages.length optimizedMessages.length)
    let count := sameLeading (currentOriginalMessages.take limit) previousOriginalMessages
    if count = 0 then optimizedMessages
    else previousForwardedMessages.take count ++ optimizedMessages.drop count

/-! ## Tracker -/

structure PrefixFreezeConfig where
  enabled : Bool
  minCachedTokens : ℤ
  sessionTtlSeconds : ℚ
  maxLineagesPerSession : ℤ

structure PrefixCacheTracker where
  /-- Which object it is. -/
  object : ℕ
  provider : Text
  cachedTokenCount : ℤ
  cachedMessageCount : ℕ
  turnNumber : ℕ
  lastActivity : ℚ
  lastOriginalMessages : List Value
  lastForwardedMessages : List Value
  idleSecondsAtFetch : ℚ

def PrefixCacheTracker.new (object : ℕ) (provider : Text) (now : ℚ) : PrefixCacheTracker where
  object := object
  provider := provider
  cachedTokenCount := 0
  cachedMessageCount := 0
  turnNumber := 0
  lastActivity := now
  lastOriginalMessages := []
  lastForwardedMessages := []
  idleSecondsAtFetch := 0

/-- How many messages are skipped on the next turn. -/
def PrefixCacheTracker.getFrozenMessageCount (tracker : PrefixCacheTracker)
    (config : PrefixFreezeConfig) : ℕ :=
  if !config.enabled then 0
  else if tracker.turnNumber = 0 then 0
  else if tracker.cachedTokenCount < config.minCachedTokens then 0
  else tracker.cachedMessageCount

/-- The leading messages that are within the cached tokens. -/
def frozenCount (totalCached : ℤ) : ℤ → List ℤ → ℕ
  | _, [] => 0
  | accumulated, count :: counts =>
      if accumulated + count ≤ totalCached then
        frozenCount totalCached (accumulated + count) counts + 1
      else 0

/-- What a response reports. -/
structure Usage where
  cacheReadTokens : ℤ
  cacheWriteTokens : ℤ
  messageTokenCounts : Option (List ℤ)

section

variable (estimateMessageTokens : List Value → List ℤ)

def PrefixCacheTracker.updateFromResponse (tracker : PrefixCacheTracker) (now : ℚ) (usage : Usage)
    (messages originalMessages : List Value) : PrefixCacheTracker :=
  let totalCached := usage.cacheReadTokens + usage.cacheWriteTokens
  let counts := usage.messageTokenCounts.getD (estimateMessageTokens messages)
  { tracker with
    lastActivity := now
    turnNumber := tracker.turnNumber + 1
    lastOriginalMessages := if originalMessages.isEmpty then messages else originalMessages
    lastForwardedMessages := messages
    cachedTokenCount := totalCached
    cachedMessageCount := if totalCached = 0 then 0 else frozenCount totalCached 0 counts }

end

/-!
## The forwarded prefix stays

A tracker records what was forwarded with the originals it was forwarded for, message by
message.  So what is replayed stands where it stood, and a history that only grows is
forwarded as a list that only grows.
-/

/-! ## One replay -/

theorem sameLeading_le (currents previouses : List Value) :
    sameLeading currents previouses ≤ currents.length := by
  induction currents generalizing previouses with
  | nil => exact Nat.le_refl 0
  | cons current currents ih =>
      cases previouses with
      | nil => exact Nat.zero_le _
      | cons previous previouses =>
          rw [sameLeading]
          split_ifs
          · exact Nat.succ_le_succ (ih previouses)
          · exact Nat.zero_le _

/-- The leading messages that are counted are the same. -/
theorem canonicallySame_of_lt_sameLeading {currents previouses : List Value} {index : ℕ}
    (hindex : index < sameLeading currents previouses) :
    ∃ current, currents[index]? = some current ∧ ∃ previous, previouses[index]? = some previous ∧
      canonicallySame current previous = true := by
  induction currents generalizing previouses index with
  | nil => exact absurd hindex (Nat.not_lt_zero index)
  | cons current currents ih =>
      cases previouses with
      | nil => exact absurd hindex (Nat.not_lt_zero index)
      | cons previous previouses =>
          rw [sameLeading] at hindex
          split_ifs at hindex with hsame
          · cases index with
            | zero => exact ⟨current, rfl, previous, rfl, hsame⟩
            | succ index => exact ih (Nat.lt_of_succ_lt_succ hindex)
          · exact absurd hindex (Nat.not_lt_zero index)

/-- A history extends another one, apart from annotations. -/
def Extends (current previous : List Value) : Prop :=
  ∃ leading rest, current = leading ++ rest ∧
    List.Forall₂ (fun now before => canonicallySame now before = true) leading previous

theorem sameLeading_of_forall₂ {leading previous : List Value} (hsame : List.Forall₂
    (fun now before => canonicallySame now before = true) leading previous) :
    sameLeading leading previous = previous.length := by
  induction hsame with
  | nil => rfl
  | cons hhead _ ih => rw [sameLeading, if_pos hhead, ih, List.length_cons]

/-- Some messages are replayed, for originals that are the same, and the rest is what
the optimizer gave. -/
def Replays (optimized current previous forwarded result : List Value) : Prop :=
  ∃ count ≤ min optimized.length forwarded.length,
    result = forwarded.take count ++ optimized.drop count ∧ ∀ index < count,
      ∃ now, current[index]? = some now ∧ ∃ before, previous[index]? = some before ∧
        canonicallySame now before = true

theorem Replays.length_eq {optimized current previous forwarded result : List Value}
    (hreplays : Replays optimized current previous forwarded result) :
    result.length = optimized.length := by
  obtain ⟨count, hcount, rfl, -⟩ := hreplays
  rw [List.length_append, List.length_take, List.length_drop]
  omega

theorem overlay_replays (optimized current previous forwarded : List Value) :
    Replays optimized current previous forwarded
      (overlayCachedPrefix optimized current previous forwarded) := by
  have hnothing : Replays optimized current previous forwarded optimized :=
    ⟨0, Nat.zero_le _, rfl, fun index hindex => absurd hindex (Nat.not_lt_zero index)⟩
  rw [overlayCachedPrefix]
  split_ifs with hempty hlength
  · exact hnothing
  · exact hnothing
  · rw [not_not] at hlength
    dsimp only
    generalize hlimit : min previous.length (min current.length optimized.length) = limit
    split_ifs with hzero
    · exact hnothing
    · have hle := (sameLeading_le (current.take limit) previous).trans (List.length_take_le _ _)
      refine ⟨_, by omega, rfl, fun index hindex => ?_⟩
      obtain ⟨now, hnow, before, hbefore, hsame⟩ := canonicallySame_of_lt_sameLeading hindex
      rw [List.getElem?_take_of_lt (by omega)] at hnow
      exact ⟨now, hnow, before, hbefore, hsame⟩

/-- Everything is replayed for a history that only grew. -/
theorem overlay_of_extends {optimized current previous forwarded : List Value}
    (hextends : Extends current previous) (hforwarded : forwarded.length = previous.length)
    (hoptimized : optimized.length = current.length) :
    forwarded <+: overlayCachedPrefix optimized current previous forwarded := by
  obtain ⟨leading, rest, rfl, hsame⟩ := hextends
  have hleading : leading.length = previous.length := hsame.length_eq
  rw [List.length_append] at hoptimized
  rw [overlayCachedPrefix]
  split_ifs with hempty hdiffers
  · rcases Bool.or_eq_true _ _ |>.mp hempty with hprevious | hforward
    · rw [List.isEmpty_iff.mp hprevious] at hforwarded
      rw [List.eq_nil_of_length_eq_zero hforwarded]
      exact List.nil_prefix
    · rw [List.isEmpty_iff.mp hforward]
      exact List.nil_prefix
  · exact absurd hforwarded hdiffers
  · have hlimit : min previous.length (min (leading ++ rest).length optimized.length) =
        leading.length := by
      rw [List.length_append]
      omega
    have hcount : sameLeading leading previous = forwarded.length := by
      rw [sameLeading_of_forall₂ hsame, hforwarded]
    dsimp only
    rw [hlimit, List.take_left, hcount, List.take_length]
    split_ifs with hzero
    · rw [List.eq_nil_of_length_eq_zero hzero]
      exact List.nil_prefix
    · exact List.prefix_append _ _

/-! ## Runs -/

/-- A turn: what came, what the optimizer made of it, and what was reported. -/
structure Turn where
  originalMessages : List Value
  optimizedMessages : List Value
  usage : Usage
  now : ℚ

def Turn.forwarded (turn : Turn) (tracker : PrefixCacheTracker) : List Value :=
  overlayCachedPrefix turn.optimizedMessages turn.originalMessages tracker.lastOriginalMessages
    tracker.lastForwardedMessages

section

variable (estimateMessageTokens : List Value → List ℤ)

/-- What is forwarded, turn by turn. -/
def forwardedFrom : PrefixCacheTracker → List Turn → List (List Value)
  | _, [] => []
  | tracker, turn :: turns =>
      let messages := turn.forwarded tracker
      messages :: forwardedFrom
        (tracker.updateFromResponse estimateMessageTokens turn.now turn.usage messages
          turn.originalMessages) turns

/-- One turn after another. -/
def Follows (turn next : Turn) (messages nextMessages : List Value) : Prop :=
  Replays next.optimizedMessages next.originalMessages turn.originalMessages messages nextMessages ∧
    (Extends next.originalMessages turn.originalMessages → messages <+: nextMessages)

/-- The tracker has what was recorded last, one message for each original. -/
def Aligned (tracker : PrefixCacheTracker) (originals messages : List Value) : Prop :=
  tracker.lastOriginalMessages = originals ∧ tracker.lastForwardedMessages = messages ∧
    messages.length = originals.length

theorem aligned_updateFromResponse (estimateMessageTokens : List Value → List ℤ)
    (tracker : PrefixCacheTracker) (now : ℚ) (usage : Usage) {messages originals : List Value}
    (hlength : messages.length = originals.length) :
    Aligned (tracker.updateFromResponse estimateMessageTokens now usage messages originals)
      originals messages := by
  refine ⟨?_, rfl, hlength⟩
  rw [PrefixCacheTracker.updateFromResponse]
  dsimp only
  split_ifs with hempty
  · rw [List.isEmpty_iff.mp hempty] at hlength ⊢
    exact List.eq_nil_of_length_eq_zero hlength
  · rfl

theorem follows_of_aligned {tracker : PrefixCacheTracker} {turn next : Turn}
    {messages : List Value} (haligned : Aligned tracker turn.originalMessages messages)
    (hcounts : next.optimizedMessages.length = next.originalMessages.length) :
    Follows turn next messages (next.forwarded tracker) := by
  obtain ⟨horiginals, hforwarded, hlength⟩ := haligned
  rw [Turn.forwarded, horiginals, hforwarded]
  exact ⟨overlay_replays _ _ _ _, fun hextends => overlay_of_extends hextends hlength hcounts⟩

/-- Every turn follows the one before it, whatever was recorded earlier. -/
theorem forwardedFrom_follows (estimateMessageTokens : List Value → List ℤ)
    (tracker : PrefixCacheTracker) (turns : List Turn)
    (hcounts : ∀ turn ∈ turns, turn.optimizedMessages.length = turn.originalMessages.length) :
    List.Forall₂ (fun turn messages => messages.length = turn.optimizedMessages.length) turns
        (forwardedFrom estimateMessageTokens tracker turns) ∧
      (turns.zip (forwardedFrom estimateMessageTokens tracker turns)).IsChain
        fun entry following => Follows entry.1 following.1 entry.2 following.2 := by
  induction turns generalizing tracker with
  | nil => exact ⟨.nil, .nil⟩
  | cons turn turns ih =>
      obtain ⟨hturn, hturns⟩ := List.forall_mem_cons.mp hcounts
      have hlength := (overlay_replays turn.optimizedMessages turn.originalMessages
        tracker.lastOriginalMessages tracker.lastForwardedMessages).length_eq
      have haligned := aligned_updateFromResponse estimateMessageTokens tracker turn.now turn.usage
        (hlength.trans hturn)
      obtain ⟨hlengths, hchain⟩ := ih (tracker.updateFromResponse estimateMessageTokens turn.now
        turn.usage (turn.forwarded tracker) turn.originalMessages) hturns
      refine ⟨.cons hlength hlengths, ?_⟩
      cases turns with
      | nil => exact .singleton _
      | cons next turns =>
          rw [forwardedFrom, forwardedFrom, List.zip_cons_cons, List.zip_cons_cons]
          refine List.isChain_cons_cons.mpr ⟨?_, hchain⟩
          exact follows_of_aligned haligned (hturns next List.mem_cons_self)

end

def userMessage (content : Value) : Value :=
  .dict [(text "role", .str (text "user")), (text "content", content)]

def userTurn (originals optimized : List Value) : Turn where
  originalMessages := originals
  optimizedMessages := optimized
  usage := ⟨0, 0, none⟩
  now := 0

/-- The second turn sends the first message again as a block. -/
theorem forwardedFrom_follows_two :
    let turns := [userTurn [userMessage (.str (text "long"))] [userMessage (.str (text "short"))],
      userTurn [userMessage (textBlocks (text "long")), userMessage (.str (text "next"))]
        [userMessage (.str (text "other")), userMessage (.str (text "next"))]]
    let forwarded := forwardedFrom (fun _ => []) (.new 0 (text "anthropic") 0) turns
    List.Forall₂ (fun turn messages => messages.length = turn.optimizedMessages.length) turns
        forwarded ∧
      (turns.zip forwarded).IsChain
        fun entry following => Follows entry.1 following.1 entry.2 following.2 :=
  forwardedFrom_follows _ _ _ fun turn hturn => by
    rcases List.mem_cons.mp hturn with rfl | hturn
    · rfl
    · rw [List.mem_singleton.mp hturn]
      rfl

end Legroom.Cache
