import Legroom.Lib.Python.Text
import Legroom.Lib.TokenBucket
import Legroom.Proxy.RateLimiter
import Mathlib.Algebra.Order.Field.Rat
import Mathlib.Tactic.FieldSimp

/-!
# The rate law

As long as the cleanup removes full buckets only, each key has a token bucket of its own for its
requests and one for its tokens: a decision depends on the earlier calls for the same key, and
no cleanup is noticed.  The cleanup looks at the requests alone, though, and removes the tokens
of a key with them.
-/

namespace Legroom.RateLimiter

open Python TokenBucket

inductive Family where
  | requests
  | tokens
  deriving DecidableEq

section

variable {Key : Type*}

namespace Call

def family : Call Key → Family
  | .request _ => .requests
  | .tokens _ _ => .tokens

def key : Call Key → Key
  | .request key => key
  | .tokens key _ => key

def amount : Call Key → ℚ
  | .request _ => 1
  | .tokens _ tokenCount => tokenCount

end Call

namespace TokenBucketRateLimiter

def rate (limiter : TokenBucketRateLimiter Key) : Family → ℚ
  | .requests => limiter.requestsPerMinute
  | .tokens => limiter.tokensPerMinute

def buckets (limiter : TokenBucketRateLimiter Key) : Family → Dict Key RateLimitState
  | .requests => limiter.requestBuckets
  | .tokens => limiter.tokenBuckets

end TokenBucketRateLimiter

variable [DecidableEq Key]

/-- The bucket of a key; one that is not there is full. -/
def stored (buckets : Dict Key RateLimitState) (rate : ℚ) (key : Key) : Bucket ℚ :=
  match buckets.get? key with
  | some state => ⟨state.tokens, state.lastUpdate⟩
  | none => ⟨rate, 0⟩

variable (limiter : TokenBucketRateLimiter Key)

def bucketOf (family : Family) (key : Key) : Bucket ℚ :=
  stored (limiter.buckets family) (limiter.rate family) key

/-- What a key may use at some time. -/
def level (family : Family) (key : Key) (now : ℚ) : ℚ :=
  levelAt (limiter.rate family) (limiter.rate family / 60) (bucketOf limiter family key) now

/-- The decision at a level. -/
def decisionAt (rate amount level : ℚ) : Bool × ℚ :=
  let (allowed, _, waitSeconds) := consumeFromBucket level amount rate
  (allowed, waitSeconds)

/-- A request may trigger a cleanup that removes full token buckets only, and no negative
number of tokens is asked for. -/
def SafeStep (event : Event Key) : Prop :=
  match event.call with
  | .request _ =>
      maxRateLimiterBuckets < limiter.requestBuckets.size →
        ∀ key ∈ staleBucketKeys (limiter.requestBuckets.mapValues (·.lastUpdate))
          event.clock.cleanup 600, ∀ state, limiter.tokenBuckets.get? key = some state →
            refilledTokens state.tokens state.lastUpdate event.clock.cleanup
              limiter.tokensPerMinute = limiter.tokensPerMinute
  | .tokens _ tokenCount => 0 ≤ tokenCount

def SafeRun : TokenBucketRateLimiter Key → List (Event Key) → Prop
  | _, [] => True
  | limiter, event :: events =>
      SafeStep limiter event ∧ SafeRun (perform limiter event).1 events

omit [DecidableEq Key] in
/-- The clock does not go back. -/
def NonDecreasing (events : List (Event Key)) : Prop :=
  events.Pairwise fun event later => event.clock.refilled ≤ later.clock.cleanup

/-- Rates are positive, and no bucket is overdrawn, overfull or from the future. -/
structure Sound (now : ℚ) : Prop where
  positive : ∀ family, 0 < limiter.rate family
  states : ∀ family key state, (limiter.buckets family).get? key = some state →
    0 ≤ state.tokens ∧ state.tokens ≤ limiter.rate family ∧ state.lastUpdate ≤ now

/-- What a call does: it draws from its own bucket and leaves the levels of the others. -/
structure Serves (limiter next : TokenBucketRateLimiter Key) (event : Event Key)
    (decision : Bool × ℚ) : Prop where
  rates : ∀ family, next.rate family = limiter.rate family
  decided : decision = decisionAt (limiter.rate event.call.family) event.call.amount
    (level limiter event.call.family event.call.key event.clock.refilled)
  own : bucketOf next event.call.family event.call.key =
    draw (limiter.rate event.call.family) (limiter.rate event.call.family / 60)
      (bucketOf limiter event.call.family event.call.key) event.clock.refilled event.call.amount
  others : ∀ family key, ¬(family = event.call.family ∧ key = event.call.key) →
    Alike (limiter.rate family) (limiter.rate family / 60) event.clock.refilled
      (bucketOf next family key) (bucketOf limiter family key)

end

/-! ## One bucket -/

section

variable {Key : Type*} [DecidableEq Key] {buckets : Dict Key RateLimitState} {rate : ℚ}

theorem levelAt_fresh (hrate : 0 < rate) (time now : ℚ) :
    levelAt rate (rate / 60) ⟨rate, time⟩ now = rate :=
  min_eq_left (le_add_of_nonneg_right
    (mul_nonneg (le_max_left _ _) (div_nonneg hrate.le (by norm_num))))

/-- A bucket that is there or is made now is found at the level of the stored one. -/
theorem levelAt_stored (hrate : 0 < rate) (clock : Clock) (key : Key) :
    refilledTokens ((buckets.get? key).getD ⟨rate, clock.created⟩).tokens
      ((buckets.get? key).getD ⟨rate, clock.created⟩).lastUpdate clock.refilled rate =
        levelAt rate (rate / 60) (stored buckets rate key) clock.refilled := by
  rw [stored]
  cases buckets.get? key with
  | none => exact (levelAt_fresh hrate clock.created _).trans (levelAt_fresh hrate 0 _).symm
  | some state => rfl

theorem checkBucket_eq (hrate : 0 < rate) (clock : Clock) (key : Key) (amount : ℚ) :
    checkBucket buckets rate clock key amount =
      let drawn := draw rate (rate / 60) (stored buckets rate key) clock.refilled amount
      (buckets.set key ⟨drawn.level, drawn.time⟩, decisionAt rate amount
        (levelAt rate (rate / 60) (stored buckets rate key) clock.refilled)) := by
  simp only [checkBucket, levelAt_stored hrate, decisionAt, consumeFromBucket, draw]
  split_ifs <;> rfl

theorem stored_set (key other : Key) (state : RateLimitState) :
    stored (buckets.set key state) rate other =
      if other = key then ⟨state.tokens, state.lastUpdate⟩ else stored buckets rate other := by
  rw [stored, Dict.get?_set]
  split_ifs
  · rfl
  · rfl

end

/-! ## One call -/

section

variable {Key : Type*} [DecidableEq Key] {limiter next : TokenBucketRateLimiter Key} {now : ℚ}

/-- A call updates its own bucket. -/
structure Updates (limiter next : TokenBucketRateLimiter Key) (event : Event Key) : Prop where
  rates : ∀ family, next.rate family = limiter.rate family
  others : ∀ family, family ≠ event.call.family → next.buckets family = limiter.buckets family
  own : next.buckets event.call.family =
    (checkBucket (limiter.buckets event.call.family) (limiter.rate event.call.family)
      event.clock event.call.key event.call.amount).1

theorem admitRequest_updates (limiter : TokenBucketRateLimiter Key) (clock : Clock) (key : Key) :
    Updates limiter (admitRequest limiter clock key).1 ⟨clock, .request key⟩ where
  rates family := by cases family <;> rfl
  others family hfamily := by
    cases family with
    | requests => exact absurd rfl hfamily
    | tokens => rfl
  own := rfl

theorem checkTokens_updates (limiter : TokenBucketRateLimiter Key) (clock : Clock) (key : Key)
    (tokenCount : ℤ) :
    Updates limiter (checkTokens limiter clock key tokenCount).1
      ⟨clock, .tokens key tokenCount⟩ where
  rates family := by cases family <;> rfl
  others family hfamily := by
    cases family with
    | requests => rfl
    | tokens => exact absurd rfl hfamily
  own := rfl

variable {event : Event Key}

theorem Updates.serves (hupdates : Updates limiter next event)
    (hpositive : ∀ family, 0 < limiter.rate family) :
    Serves limiter next event
      (checkBucket (limiter.buckets event.call.family) (limiter.rate event.call.family)
        event.clock event.call.key event.call.amount).2 where
  rates := hupdates.rates
  decided := by
    rw [checkBucket_eq (hpositive _)]
    rfl
  own := by
    rw [bucketOf, hupdates.own, checkBucket_eq (hpositive _), hupdates.rates, stored_set,
      if_pos rfl]
    rfl
  others family key hother := by
    have hsame : bucketOf next family key = bucketOf limiter family key := by
      rw [bucketOf, bucketOf, hupdates.rates]
      by_cases hfamily : family = event.call.family
      · subst hfamily
        rw [hupdates.own, checkBucket_eq (hpositive _), stored_set,
          if_neg fun hkey => hother ⟨rfl, hkey⟩]
      · rw [hupdates.others family hfamily]
    rw [hsame]
    exact fun _ _ => rfl

theorem performWithoutCleanup_serves (hpositive : ∀ family, 0 < limiter.rate family)
    (event : Event Key) :
    Serves limiter (performWithoutCleanup limiter event).1 event
      (performWithoutCleanup limiter event).2 := by
  obtain ⟨clock, call⟩ := event
  cases call with
  | request key => exact (admitRequest_updates limiter clock key).serves hpositive
  | tokens key tokenCount =>
      exact (checkTokens_updates limiter clock key tokenCount).serves hpositive

/-! ## The cleanup -/

/-- The keys that are removed are removed from both families. -/
theorem buckets_cleanup (limiter : TokenBucketRateLimiter Key) (now : ℚ) (family : Family)
    (key : Key) :
    ((cleanupStaleBuckets limiter now).buckets family).get? key =
      if key ∈ staleBucketKeys (limiter.requestBuckets.mapValues (·.lastUpdate)) now 600 then none
      else (limiter.buckets family).get? key := by
  rw [cleanupStaleBuckets]
  generalize staleBucketKeys (limiter.requestBuckets.mapValues (·.lastUpdate)) now 600 = keys
  induction keys generalizing limiter with
  | nil => rw [List.foldl_nil, if_neg List.not_mem_nil]
  | cons first keys ih =>
      rw [List.foldl_cons, ih]
      by_cases hkeys : key ∈ keys
      · rw [if_pos hkeys, if_pos (List.mem_cons_of_mem _ hkeys)]
      rw [if_neg hkeys]
      have herased : ∀ dict : Dict Key RateLimitState, (dict.erase first).get? key =
          if key ∈ first :: keys then none else dict.get? key := by
        intro dict
        rw [Dict.get?_erase]
        simp only [List.mem_cons, hkeys, or_false]
      cases family with
      | requests => exact herased _
      | tokens => exact herased _

theorem rate_cleanup (limiter : TokenBucketRateLimiter Key) (now : ℚ) (family : Family) :
    (cleanupStaleBuckets limiter now).rate family = limiter.rate family := by
  rw [cleanupStaleBuckets]
  generalize staleBucketKeys (limiter.requestBuckets.mapValues (·.lastUpdate)) now 600 = keys
  induction keys generalizing limiter with
  | nil => rfl
  | cons first keys ih =>
      rw [List.foldl_cons, ih]
      cases family <;> rfl

theorem mem_staleBucketKeys {key : Key} : key ∈ staleBucketKeys
    (limiter.requestBuckets.mapValues (·.lastUpdate)) now 600 ↔
      ∃ state, limiter.requestBuckets.get? key = some state ∧ state.lastUpdate < now - 600 := by
  constructor
  · intro hkey
    obtain ⟨entry, hentry, rfl⟩ := List.mem_map.mp hkey
    obtain ⟨hmem, hstale⟩ := List.mem_filter.mp hentry
    obtain ⟨original, horiginal, rfl⟩ := List.mem_map.mp hmem
    exact ⟨original.2, Dict.get?_eq_some_iff.mpr horiginal, of_decide_eq_true hstale⟩
  · rintro ⟨state, hstate, hstale⟩
    exact List.mem_map.mpr ⟨(key, state.lastUpdate), List.mem_filter.mpr
      ⟨List.mem_map.mpr ⟨(key, state), Dict.get?_eq_some_iff.mp hstate, rfl⟩,
        decide_eq_true hstale⟩, rfl⟩

/-- After ten minutes a bucket is full. -/
theorem levelAt_stale {rate : ℚ} {state : RateLimitState} (hrate : 0 < rate)
    (htokens : 0 ≤ state.tokens) (hstale : state.lastUpdate < now - 600) :
    levelAt rate (rate / 60) ⟨state.tokens, state.lastUpdate⟩ now = rate := by
  have helapsed : 600 ≤ max 0 (now - state.lastUpdate) := le_max_of_le_right (by linarith)
  have hrefill : 600 * (rate / 60) ≤ max 0 (now - state.lastUpdate) * (rate / 60) :=
    mul_le_mul_of_nonneg_right helapsed (div_nonneg hrate.le (by norm_num))
  refine min_eq_left ?_
  show rate ≤ state.tokens + max 0 (now - state.lastUpdate) * (rate / 60)
  linarith

/-- A cleanup that removes full buckets changes no level. -/
theorem alike_cleanup (hsound : Sound limiter now)
    (hfull : ∀ key ∈ staleBucketKeys (limiter.requestBuckets.mapValues (·.lastUpdate)) now 600,
      ∀ state, limiter.tokenBuckets.get? key = some state →
        refilledTokens state.tokens state.lastUpdate now limiter.tokensPerMinute =
          limiter.tokensPerMinute) (family : Family) (key : Key) :
    Alike (limiter.rate family) (limiter.rate family / 60) now
      (bucketOf (cleanupStaleBuckets limiter now) family key) (bucketOf limiter family key) := by
  have hrate := hsound.positive family
  have hspeed : 0 ≤ limiter.rate family / 60 := div_nonneg hrate.le (by norm_num)
  rw [bucketOf, stored, buckets_cleanup, rate_cleanup]
  by_cases hstale : key ∈ staleBucketKeys (limiter.requestBuckets.mapValues (·.lastUpdate)) now 600
  · rw [if_pos hstale]
    have hbefore : levelAt (limiter.rate family) (limiter.rate family / 60)
        (bucketOf limiter family key) now = limiter.rate family := by
      rw [bucketOf, stored]
      cases hstate : (limiter.buckets family).get? key with
      | none => exact levelAt_fresh hrate _ _
      | some state =>
          cases family with
          | requests =>
              obtain ⟨found, hfound, hlate⟩ := mem_staleBucketKeys.mp hstale
              cases hfound.symm.trans hstate
              exact levelAt_stale hrate (hsound.states .requests key state hstate).1 hlate
          | tokens => exact hfull key hstale state hstate
    intro later hlater
    exact (levelAt_fresh hrate _ _).trans (levelAt_full hspeed hbefore hlater).symm
  · rw [if_neg hstale]
    exact fun _ _ => rfl

theorem Serves.of_alike {prepared : TokenBucketRateLimiter Key} {decision : Bool × ℚ}
    (hserves : Serves prepared next event decision)
    (hrates : ∀ family, prepared.rate family = limiter.rate family)
    (halike : ∀ family key, Alike (limiter.rate family) (limiter.rate family / 60)
      event.clock.refilled (bucketOf prepared family key) (bucketOf limiter family key)) :
    Serves limiter next event decision where
  rates family := (hserves.rates family).trans (hrates family)
  decided := by
    rw [hserves.decided, level, level, hrates, halike _ _ _ le_rfl]
  own := by
    rw [hserves.own, hrates, draw_congr (halike _ _) le_rfl]
  others family key hother later hlater := by
    have hprepared := hserves.others family key hother later hlater
    rw [hrates] at hprepared
    exact hprepared.trans (halike family key later hlater)

/-- A safe call serves. -/
theorem perform_serves (hsound : Sound limiter event.clock.cleanup)
    (hsafe : SafeStep limiter event) :
    Serves limiter (perform limiter event).1 event (perform limiter event).2 := by
  obtain ⟨clock, call⟩ := event
  cases call with
  | tokens key tokenCount =>
      exact (checkTokens_updates limiter clock key tokenCount).serves hsound.positive
  | request key =>
      show Serves limiter (checkRequest limiter clock key).1 ⟨clock, .request key⟩
        (checkRequest limiter clock key).2
      rw [checkRequest]
      split_ifs with hmany
      · have hpositive : ∀ family, 0 < (cleanupStaleBuckets limiter clock.cleanup).rate family :=
          fun family => by
            rw [rate_cleanup]
            exact hsound.positive family
        refine ((admitRequest_updates _ clock key).serves hpositive).of_alike
          (rate_cleanup limiter _) fun other name => ?_
        exact (alike_cleanup hsound (hsafe hmany) other name).mono
          (clock.created_le.trans clock.refilled_le)
      · exact (admitRequest_updates limiter clock key).serves hsound.positive

/-! ## Soundness -/

theorem Sound.mono {later : ℚ} (hsound : Sound limiter now) (hlater : now ≤ later) :
    Sound limiter later where
  positive := hsound.positive
  states family key state hstate :=
    have hstates := hsound.states family key state hstate
    ⟨hstates.1, hstates.2.1, hstates.2.2.trans hlater⟩

theorem sound_cleanup {time : ℚ} (hsound : Sound limiter now) :
    Sound (cleanupStaleBuckets limiter time) now where
  positive family := by
    rw [rate_cleanup]
    exact hsound.positive family
  states family key state hstate := by
    rw [buckets_cleanup] at hstate
    split_ifs at hstate
    rw [rate_cleanup]
    exact hsound.states family key state hstate

/-- What is left in a bucket is neither negative nor more than its rate. -/
theorem draw_stored (hsound : Sound limiter now) (family : Family) (key : Key) (time : ℚ)
    {amount : ℚ} (hamount : 0 ≤ amount) :
    let drawn := draw (limiter.rate family) (limiter.rate family / 60)
      (stored (limiter.buckets family) (limiter.rate family) key) time amount
    0 ≤ drawn.level ∧ drawn.level ≤ limiter.rate family := by
  have hrate := hsound.positive family
  have hlevel : 0 ≤ (stored (limiter.buckets family) (limiter.rate family) key).level := by
    rw [stored]
    cases hstate : (limiter.buckets family).get? key with
    | none => exact hrate.le
    | some state => exact (hsound.states family key state hstate).1
  exact ⟨draw_level_nonneg time amount hrate.le (div_nonneg hrate.le (by norm_num)) hlevel,
    draw_level_le hamount⟩

theorem Updates.sound (hupdates : Updates limiter next event)
    (hsound : Sound limiter event.clock.cleanup) (hamount : 0 ≤ event.call.amount) :
    Sound next event.clock.refilled where
  positive family := by
    rw [hupdates.rates]
    exact hsound.positive family
  states family key state hstate := by
    have hlater := hsound.mono (event.clock.created_le.trans event.clock.refilled_le)
    rw [hupdates.rates]
    by_cases hfamily : family = event.call.family
    · subst hfamily
      rw [hupdates.own, checkBucket_eq (hsound.positive _), Dict.get?_set] at hstate
      split_ifs at hstate
      · cases hstate
        have hdrawn := draw_stored hsound event.call.family event.call.key event.clock.refilled
          hamount
        exact ⟨hdrawn.1, hdrawn.2, le_rfl⟩
      · exact hlater.states _ key state hstate
    · rw [hupdates.others family hfamily] at hstate
      exact hlater.states family key state hstate

/-- A safe call leaves a sound limiter sound. -/
theorem perform_sound (hsound : Sound limiter event.clock.cleanup)
    (hsafe : SafeStep limiter event) :
    Sound (perform limiter event).1 event.clock.refilled := by
  obtain ⟨clock, call⟩ := event
  cases call with
  | tokens key tokenCount =>
      have hcount : (0 : ℚ) ≤ tokenCount := Int.cast_nonneg hsafe
      exact (checkTokens_updates limiter clock key tokenCount).sound hsound hcount
  | request key =>
      have hone : (0 : ℚ) ≤ 1 := zero_le_one
      show Sound (checkRequest limiter clock key).1 clock.refilled
      rw [checkRequest]
      split_ifs
      · exact (admitRequest_updates _ clock key).sound (sound_cleanup hsound) hone
      · exact (admitRequest_updates limiter clock key).sound hsound hone

end

/-! ## Runs -/

section

variable {Key : Type*} [DecidableEq Key]
  {step : TokenBucketRateLimiter Key → Event Key → TokenBucketRateLimiter Key × Bool × ℚ}
  {limiter : TokenBucketRateLimiter Key} {events : List (Event Key)} {now : ℚ}

/-- Every call of a run serves. -/
def Served (step : TokenBucketRateLimiter Key → Event Key →
    TokenBucketRateLimiter Key × Bool × ℚ) :
    TokenBucketRateLimiter Key → List (Event Key) → Prop
  | _, [] => True
  | limiter, event :: events =>
      Serves limiter (step limiter event).1 event (step limiter event).2 ∧
        Served step (step limiter event).1 events

def Event.isFor (family : Family) (key : Key) (event : Event Key) : Bool :=
  decide (event.call.family = family ∧ event.call.key = key)

/-- What is asked of one bucket, and when. -/
def asksOf (family : Family) (key : Key) (events : List (Event Key)) : List (ℚ × ℚ) :=
  (events.filter (·.isFor family key)).map fun event =>
    (event.clock.refilled, event.call.amount)

/-- The decisions on one bucket. -/
def decisionsOn (family : Family) (key : Key) (events : List (Event Key))
    (decisions : List (Bool × ℚ)) : List (Bool × ℚ) :=
  ((events.zip decisions).filter fun entry => entry.1.isFor family key).map Prod.snd

/-- What a key was allowed from `start` to `stop`. -/
def allowedOf (family : Family) (key : Key) (start stop : ℚ) (events : List (Event Key))
    (decisions : List (Bool × ℚ)) : ℚ :=
  ((events.zip decisions).map fun entry =>
    if entry.1.isFor family key ∧ start ≤ entry.1.clock.refilled ∧
      entry.1.clock.refilled ≤ stop ∧ entry.2.1 then entry.1.call.amount else 0).sum

theorem decisionAt_allowed (rate amount level : ℚ) :
    (decisionAt rate amount level).1 = decide (amount ≤ level) := by
  rw [decisionAt, consumeFromBucket]
  split_ifs with hfits
  · exact (decide_eq_true hfits).symm
  · exact (decide_eq_false hfits).symm

omit [DecidableEq Key] in
theorem runWith_cons (event : Event Key) :
    runWith step limiter (event :: events) =
      ((runWith step (step limiter event).1 events).1,
        (step limiter event).2 :: (runWith step (step limiter event).1 events).2) := rfl

variable (family : Family)
variable (key : Key)

theorem asksOf_cons (event : Event Key) (events : List (Event Key)) :
    asksOf family key (event :: events) =
      if event.isFor family key then
        (event.clock.refilled, event.call.amount) :: asksOf family key events
      else asksOf family key events := by
  rw [asksOf, List.filter_cons]
  split_ifs <;> rfl

theorem decisionsOn_cons (event : Event Key) (events : List (Event Key)) (decision : Bool × ℚ)
    (decisions : List (Bool × ℚ)) :
    decisionsOn family key (event :: events) (decision :: decisions) =
      if event.isFor family key then decision :: decisionsOn family key events decisions
      else decisionsOn family key events decisions := by
  rw [decisionsOn, List.zip_cons_cons, List.filter_cons]
  split_ifs <;> rfl

theorem allowedOf_cons (start stop : ℚ) (event : Event Key) (events : List (Event Key))
    (decision : Bool × ℚ) (decisions : List (Bool × ℚ)) :
    allowedOf family key start stop (event :: events) (decision :: decisions) =
      (if event.isFor family key ∧ start ≤ event.clock.refilled ∧ event.clock.refilled ≤ stop ∧
        decision.1 then event.call.amount else 0) +
          allowedOf family key start stop events decisions := by
  rw [allowedOf, List.zip_cons_cons, List.map_cons, List.sum_cons, allowedOf]

variable {family : Family} {key : Key} {bucket : Bucket ℚ}
variable {next : TokenBucketRateLimiter Key} {event : Event Key} {decision : Bool × ℚ}

/-- What a call does to a bucket and to one that is alike. -/
theorem Serves.alike (hserves : Serves limiter next event decision)
    (htime : now ≤ event.clock.refilled)
    (halike : Alike (limiter.rate family) (limiter.rate family / 60) now
      (bucketOf limiter family key) bucket) :
    Alike (next.rate family) (next.rate family / 60) event.clock.refilled
      (bucketOf next family key)
      (if event.isFor family key then
        draw (limiter.rate family) (limiter.rate family / 60) bucket event.clock.refilled
          event.call.amount
      else bucket) ∧
    (event.isFor family key = true →
      decision = decisionAt (limiter.rate family) event.call.amount (levelAt (limiter.rate family)
        (limiter.rate family / 60) bucket event.clock.refilled)) := by
  rw [hserves.rates]
  by_cases hfor : event.isFor family key = true
  · obtain ⟨rfl, rfl⟩ := of_decide_eq_true hfor
    rw [if_pos hfor, hserves.own, draw_congr halike htime, hserves.decided, level,
      halike _ htime]
    exact ⟨fun _ _ => rfl, fun _ => rfl⟩
  · rw [if_neg hfor]
    refine ⟨fun later hlater => ?_, fun hown => absurd hown hfor⟩
    rw [hserves.others family key (fun hboth => hfor (decide_eq_true ⟨hboth.1.symm, hboth.2.symm⟩))
      later hlater]
    exact halike later (htime.trans hlater)

variable {rate : ℚ}

/-- The decisions on a bucket are those on a bucket of its own. -/
theorem decisionsOn_runWith (hrate : limiter.rate family = rate)
    (hserved : Served step limiter events) (hclock : NonDecreasing events)
    (hnow : ∀ event ∈ events, now ≤ event.clock.cleanup)
    (halike : Alike rate (rate / 60) now (bucketOf limiter family key) bucket) :
    decisionsOn family key events (runWith step limiter events).2 =
      ((asksOf family key events).zip (levels rate (rate / 60) bucket
        (asksOf family key events))).map fun entry => decisionAt rate entry.1.2 entry.2 := by
  induction events generalizing limiter now bucket with
  | nil => rfl
  | cons event events ih =>
      obtain ⟨hserves, hserved⟩ := hserved
      obtain ⟨hlater, hclock⟩ := List.pairwise_cons.mp hclock
      have htime : now ≤ event.clock.refilled := (hnow event List.mem_cons_self).trans
        (event.clock.created_le.trans event.clock.refilled_le)
      subst hrate
      obtain ⟨hnext, hdecision⟩ := hserves.alike htime halike
      rw [hserves.rates] at hnext
      have hrest := ih (hserves.rates family) hserved hclock hlater hnext
      rw [runWith_cons, decisionsOn_cons, asksOf_cons, hrest]
      by_cases hfor : event.isFor family key = true
      · rw [if_pos hfor, if_pos hfor, if_pos hfor, levels, List.zip_cons_cons, List.map_cons,
          hdecision hfor]
      · rw [if_neg hfor, if_neg hfor, if_neg hfor]

/-- So is what is allowed in a window. -/
theorem allowedOf_runWith (start stop : ℚ) (hrate : limiter.rate family = rate)
    (hserved : Served step limiter events) (hclock : NonDecreasing events)
    (hnow : ∀ event ∈ events, now ≤ event.clock.cleanup)
    (halike : Alike rate (rate / 60) now (bucketOf limiter family key) bucket) :
    allowedOf family key start stop events (runWith step limiter events).2 =
      granted rate (rate / 60) start stop bucket (asksOf family key events) := by
  induction events generalizing limiter now bucket with
  | nil => rfl
  | cons event events ih =>
      obtain ⟨hserves, hserved⟩ := hserved
      obtain ⟨hlater, hclock⟩ := List.pairwise_cons.mp hclock
      have htime : now ≤ event.clock.refilled := (hnow event List.mem_cons_self).trans
        (event.clock.created_le.trans event.clock.refilled_le)
      subst hrate
      obtain ⟨hnext, hdecision⟩ := hserves.alike htime halike
      rw [hserves.rates] at hnext
      have hrest := ih (hserves.rates family) hserved hclock hlater hnext
      rw [runWith_cons, allowedOf_cons, asksOf_cons, hrest]
      by_cases hfor : event.isFor family key = true
      · rw [if_pos hfor, if_pos hfor, granted, hdecision hfor, decisionAt_allowed]
        simp only [hfor, true_and, decide_eq_true_eq]
      · rw [if_neg hfor, if_neg hfor, if_neg fun hboth => hfor hboth.1, zero_add]

/-! ## Safe runs -/

/-- In a safe run every call serves, and the limiter stays sound. -/
theorem served_run (hsound : Sound limiter now) (hsafe : SafeRun limiter events)
    (hclock : NonDecreasing events) (hnow : ∀ event ∈ events, now ≤ event.clock.cleanup) :
    Served perform limiter events ∧
      ∀ later, now ≤ later → (∀ event ∈ events, event.clock.refilled ≤ later) →
        Sound (run limiter events).1 later := by
  induction events generalizing limiter now with
  | nil => exact ⟨trivial, fun later hlater _ => hsound.mono hlater⟩
  | cons event events ih =>
      obtain ⟨hfirst, hsafe⟩ := hsafe
      obtain ⟨hlater, hclock⟩ := List.pairwise_cons.mp hclock
      have hready := hsound.mono (hnow event List.mem_cons_self)
      obtain ⟨hserved, hlast⟩ := ih (perform_sound hready hfirst) hsafe hclock hlater
      refine ⟨⟨perform_serves hready hfirst, hserved⟩, fun later _ hevents => ?_⟩
      obtain ⟨hevent, hevents⟩ := List.forall_mem_cons.mp hevents
      exact hlast later hevent hevents

theorem served_withoutCleanup (hpositive : ∀ family, 0 < limiter.rate family)
    (events : List (Event Key)) : Served performWithoutCleanup limiter events := by
  induction events generalizing limiter with
  | nil => trivial
  | cons event events ih =>
      have hserves := performWithoutCleanup_serves hpositive event
      refine ⟨hserves, ih fun family => ?_⟩
      rw [hserves.rates]
      exact hpositive family

theorem amount_nonneg (hsafe : SafeRun limiter events) :
    ∀ event ∈ events, 0 ≤ event.call.amount := by
  induction events generalizing limiter with
  | nil => exact fun _ hnil => absurd hnil List.not_mem_nil
  | cons event events ih =>
      refine List.forall_mem_cons.mpr ⟨?_, ih hsafe.2⟩
      obtain ⟨clock, call⟩ := event
      cases call with
      | request key => exact zero_le_one
      | tokens key tokenCount => exact Int.cast_nonneg hsafe.1

theorem ordered_asksOf (hclock : NonDecreasing events)
    (hnow : ∀ event ∈ events, now ≤ event.clock.cleanup)
    (hamounts : ∀ event ∈ events, 0 ≤ event.call.amount) :
    Ordered now (asksOf family key events) := by
  induction events generalizing now with
  | nil => trivial
  | cons event events ih =>
      obtain ⟨hlater, hclock⟩ := List.pairwise_cons.mp hclock
      obtain ⟨hamount, hamounts⟩ := List.forall_mem_cons.mp hamounts
      obtain ⟨hfirst, hnow⟩ := List.forall_mem_cons.mp hnow
      rw [asksOf_cons]
      split_ifs
      · exact ⟨hfirst.trans (event.clock.created_le.trans event.clock.refilled_le), hamount,
          ih hclock hlater hamounts⟩
      · exact ih hclock hnow hamounts

omit [DecidableEq Key] in
theorem exists_le_clock (hclock : NonDecreasing events) :
    ∃ now, ∀ event ∈ events, now ≤ event.clock.cleanup := by
  cases events with
  | nil => exact ⟨0, fun _ hnil => absurd hnil List.not_mem_nil⟩
  | cons event events =>
      refine ⟨event.clock.cleanup, List.forall_mem_cons.mpr ⟨le_rfl, fun later hlater => ?_⟩⟩
      exact (event.clock.created_le.trans event.clock.refilled_le).trans
        ((List.pairwise_cons.mp hclock).1 later hlater)

/-! ## New limiters -/

variable {requests tokens : ℚ}

omit [DecidableEq Key] in
theorem rate_new (hrequests : 0 < requests) (htokens : 0 < tokens) (family : Family) :
    0 < (TokenBucketRateLimiter.new requests tokens : TokenBucketRateLimiter Key).rate family := by
  cases family with
  | requests => exact hrequests
  | tokens => exact htokens

theorem sound_new (hrequests : 0 < requests) (htokens : 0 < tokens) (now : ℚ) :
    Sound (.new requests tokens : TokenBucketRateLimiter Key) now where
  positive := rate_new hrequests htokens
  states family key state hstate := by cases family <;> cases hstate

theorem bucketOf_new :
    bucketOf (.new requests tokens : TokenBucketRateLimiter Key) family key =
      ⟨(TokenBucketRateLimiter.new requests tokens : TokenBucketRateLimiter Key).rate family,
        0⟩ := by
  cases family <;> rfl

/-- The calls for one key alone never trigger a cleanup. -/
theorem safeRun_of_key (hkeys : ∀ other ∈ limiter.requestBuckets.keys, other = key)
    (hevents : ∀ event ∈ events, event.call.key = key ∧ 0 ≤ event.call.amount) :
    SafeRun limiter events := by
  induction events generalizing limiter with
  | nil => trivial
  | cons event events ih =>
      obtain ⟨⟨hkey, hamount⟩, hrest⟩ := List.forall_mem_cons.mp hevents
      have hfew : ¬maxRateLimiterBuckets < limiter.requestBuckets.size := by
        have hsubset : limiter.requestBuckets.keys ⊆ [key] := fun other hother =>
          List.mem_singleton.mpr (hkeys other hother)
        have hlength := (List.subperm_of_subset limiter.requestBuckets.nodup hsubset).length_le
        rw [List.length_map] at hlength
        exact not_lt.mpr (hlength.trans (show 1 ≤ 1000 by decide))
      obtain ⟨clock, call⟩ := event
      cases call with
      | request other =>
          refine ⟨fun hmany => absurd hmany hfew, ih (fun found hfound => ?_) hrest⟩
          have hset : ∃ state, (perform limiter ⟨clock, .request other⟩).1.requestBuckets =
              limiter.requestBuckets.set other state := by
            show ∃ state, (checkRequest limiter clock other).1.requestBuckets =
              limiter.requestBuckets.set other state
            rw [checkRequest, if_neg hfew]
            exact ⟨_, rfl⟩
          obtain ⟨state, hset⟩ := hset
          rw [hset] at hfound
          rcases Dict.mem_keys_set.mp hfound with rfl | hold
          · exact hkey
          · exact hkeys found hold
      | tokens other tokenCount => exact ⟨Int.cast_nonneg_iff.mp hamount, ih hkeys hrest⟩

/-! ## The law -/

theorem levelAt_draw_refused {amount now wait : ℚ} (hrate : 0 < rate)
    (hrefused : levelAt rate (rate / 60) bucket now < amount) (hfits : amount ≤ rate)
    (hwait : wait = (amount - levelAt rate (rate / 60) bucket now) * (60 / rate)) :
    levelAt rate (rate / 60) (draw rate (rate / 60) bucket now amount) (now + wait) = amount := by
  have hnonneg : 0 ≤ wait := by
    rw [hwait]
    exact mul_nonneg (sub_nonneg.mpr hrefused.le) (div_nonneg (by norm_num) hrate.le)
  have hrefill : wait * (rate / 60) = amount - levelAt rate (rate / 60) bucket now := by
    rw [hwait]
    field_simp
  rw [draw, if_neg (not_le.mpr hrefused)]
  generalize levelAt rate (rate / 60) bucket now = found at hrefill ⊢
  rw [levelAt]
  dsimp only
  rw [add_sub_cancel_left, max_eq_right hnonneg, hrefill, add_sub_cancel]
  exact min_eq_right hfits

/-- What is refused leaves all levels as they would have been. -/
theorem Serves.alike_of_refused (hserves : Serves limiter next event decision)
    (hsound : Sound limiter event.clock.cleanup) (hrefused : decision.1 = false) (family : Family)
    (key : Key) : Alike (limiter.rate family) (limiter.rate family / 60) event.clock.refilled
      (bucketOf next family key) (bucketOf limiter family key) := by
  by_cases hown : family = event.call.family ∧ key = event.call.key
  · obtain ⟨rfl, rfl⟩ := hown
    have hrate := hsound.positive event.call.family
    have hspeed : 0 ≤ limiter.rate event.call.family / 60 := div_nonneg hrate.le (by norm_num)
    rw [hserves.decided, decisionAt_allowed, decide_eq_false_iff_not, not_le, level] at hrefused
    rw [hserves.own]
    cases hstate : (limiter.buckets event.call.family).get? event.call.key with
    | none =>
        have hnew : bucketOf limiter event.call.family event.call.key =
            ⟨limiter.rate event.call.family, 0⟩ := by
          rw [bucketOf, stored, hstate]
        rw [hnew] at hrefused ⊢
        intro later _
        rw [draw, if_neg (not_le.mpr hrefused), levelAt_fresh hrate, levelAt_fresh hrate,
          levelAt_fresh hrate]
    | some state =>
        have hold : bucketOf limiter event.call.family event.call.key =
            ⟨state.tokens, state.lastUpdate⟩ := by
          rw [bucketOf, stored, hstate]
        rw [hold] at hrefused ⊢
        exact alike_draw_of_lt hspeed ((hsound.states _ _ _ hstate).2.2.trans
          (event.clock.created_le.trans event.clock.refilled_le)) hrefused
  · exact hserves.others family key hown

/-- A new limiter is sound after a safe run. -/
theorem sound_reached (hrequests : 0 < requests) (htokens : 0 < tokens)
    (hclock : NonDecreasing events)
    (hsafe : SafeRun (.new requests tokens : TokenBucketRateLimiter Key) events) {later : ℚ}
    (hlater : ∀ event ∈ events, event.clock.refilled ≤ later) :
    Sound (run (.new requests tokens) events).1 later := by
  obtain ⟨now, hnow⟩ := exists_le_clock hclock
  exact (served_run (sound_new hrequests htokens (min now later)) hsafe hclock
    fun event hevent => (min_le_left now later).trans (hnow event hevent)).2 later
      (min_le_right now later) hlater

theorem run_rate (hserved : Served perform limiter events) (family : Family) :
    (run limiter events).1.rate family = limiter.rate family := by
  induction events generalizing limiter with
  | nil => rfl
  | cons event events ih => exact (ih hserved.2).trans (hserved.1.rates family)

omit [DecidableEq Key] in
theorem exists_ge_clock (events : List (Event Key)) :
    ∃ later, ∀ event ∈ events, event.clock.refilled ≤ later := by
  induction events with
  | nil => exact ⟨0, fun _ hnil => absurd hnil List.not_mem_nil⟩
  | cons event events ih =>
      obtain ⟨later, hlater⟩ := ih
      refine ⟨max event.clock.refilled later, List.forall_mem_cons.mpr ⟨le_max_left _ _, ?_⟩⟩
      exact fun found hfound => (hlater found hfound).trans (le_max_right _ _)

/-- In every safe run of a new limiter levels stay between zero and the rate, no window allows
more than the rate and what comes in, what is refused changes nothing, waiting as long as asked
helps, and neither other keys nor cleanups change the decisions on a key. -/
theorem rate_law (requests tokens : ℚ) (hrequests : 0 < requests) (htokens : 0 < tokens)
    (events : List (Event Key)) (hclock : NonDecreasing events)
    (hsafe : SafeRun (.new requests tokens) events) :
    let limiter : TokenBucketRateLimiter Key := .new requests tokens
    let reached := (run limiter events).1
    let decisions := (run limiter events).2
    (∀ family key state, (reached.buckets family).get? key = some state →
      0 ≤ state.tokens ∧ state.tokens ≤ limiter.rate family) ∧
    (∀ family key start span, 0 ≤ span →
      allowedOf family key start (start + span) events decisions ≤
        limiter.rate family + limiter.rate family * span / 60) ∧
    (∀ event, NonDecreasing (events ++ [event]) → SafeStep reached event →
      (perform reached event).2.1 = false →
        ∀ family key later, event.clock.refilled ≤ later →
          level (perform reached event).1 family key later = level reached family key later) ∧
    (∀ event retry, NonDecreasing (events ++ [event, retry]) → SafeStep reached event →
      SafeStep (perform reached event).1 retry → (perform reached event).2.1 = false →
        retry.call = event.call → event.call.amount ≤ limiter.rate event.call.family →
          retry.clock.refilled = event.clock.refilled + (perform reached event).2.2 →
            (perform (perform reached event).1 retry).2.1 = true) ∧
    (∀ family key, decisionsOn family key events decisions =
      decisionsOn family key (events.filter fun event => event.call.key = key)
        (run limiter (events.filter fun event => event.call.key = key)).2) ∧
    ∀ family key, decisionsOn family key events decisions =
      decisionsOn family key events (runWith performWithoutCleanup limiter events).2 := by
  intro limiter reached decisions
  obtain ⟨now, hnow⟩ := exists_le_clock hclock
  have hpositive : ∀ family, 0 < limiter.rate family := rate_new hrequests htokens
  have hsound : Sound limiter now := sound_new hrequests htokens now
  obtain ⟨hserved, hreached⟩ := served_run hsound hsafe hclock hnow
  have hfull : ∀ family key, Alike (limiter.rate family) (limiter.rate family / 60) now
      (bucketOf limiter family key) ⟨limiter.rate family, now⟩ := by
    intro family key later _
    rw [bucketOf_new]
    exact (levelAt_fresh (hpositive family) _ _).trans (levelAt_fresh (hpositive family) _ _).symm
  have hwithout := served_withoutCleanup hpositive events
  have hready : ∀ {event : Event Key}, NonDecreasing (events ++ [event]) →
      Sound reached event.clock.cleanup := fun hmore =>
    sound_reached hrequests htokens hclock hsafe fun found hfound =>
      (List.pairwise_append.mp hmore).2.2 found hfound _ (List.mem_singleton_self _)
  refine ⟨fun family key state hstate => ?_, fun family key start span hspan => ?_,
    fun event hmore hevent hrefused family key later hlater => ?_,
    fun event retry hmore hevent hretry hrefused hcall hfits hwait => ?_,
    fun family key => ?_, fun family key => ?_⟩
  · obtain ⟨later, hlater⟩ := exists_ge_clock events
    have hstates := (sound_reached hrequests htokens hclock hsafe hlater).states family key
      state hstate
    rw [run_rate hserved] at hstates
    exact ⟨hstates.1, hstates.2.1⟩
  · rw [show decisions = (runWith perform limiter events).2 from rfl,
      allowedOf_runWith start (start + span) rfl hserved hclock hnow (hfull family key)]
    have hrate := (hpositive family).le
    refine (granted_le hrate (div_nonneg hrate (by norm_num)) hrate (ordered_asksOf hclock hnow
      (amount_nonneg hsafe)) (le_add_of_nonneg_right hspan)).trans (le_of_eq ?_)
    ring
  · have hserves := perform_serves (hready hmore) hevent
    have halike := hserves.alike_of_refused (hready hmore) hrefused family key later hlater
    rw [level, level, hserves.rates]
    exact halike
  · have hsoundEvent := hready
      (hmore.sublist (((List.nil_sublist [retry]).cons_cons event).append_left events))
    have hserves := perform_serves hsoundEvent hevent
    have horder : event.clock.refilled ≤ retry.clock.cleanup := by
      have hpair := (List.pairwise_append.mp hmore).2.1
      exact (List.pairwise_cons.mp hpair).1 retry (List.mem_singleton_self _)
    have hagain := perform_serves ((perform_sound hsoundEvent hevent).mono horder) hretry
    have hrate := hsoundEvent.positive event.call.family
    have hlimit := run_rate hserved event.call.family
    rw [hserves.decided, decisionAt_allowed, decide_eq_false_iff_not, not_le] at hrefused
    have hdelay : (perform reached event).2.2 = (event.call.amount -
        level reached event.call.family event.call.key event.clock.refilled) *
          (60 / reached.rate event.call.family) := by
      rw [hserves.decided, decisionAt, consumeFromBucket, if_neg (not_le.mpr hrefused)]
    have hlevel := levelAt_draw_refused hrate hrefused (hfits.trans_eq hlimit.symm) hdelay
    rw [hagain.decided, decisionAt_allowed, decide_eq_true_eq, hcall, hwait, level,
      hserves.rates, hserves.own, hlevel]
  · rw [show decisions = (runWith perform limiter events).2 from rfl,
      decisionsOn_runWith rfl hserved hclock hnow (hfull family key)]
    have hown : ∀ event ∈ events.filter fun event => event.call.key = key,
        event.call.key = key ∧ 0 ≤ event.call.amount := fun event hevent =>
      ⟨of_decide_eq_true (List.mem_filter.mp hevent).2,
        amount_nonneg hsafe event (List.mem_filter.mp hevent).1⟩
    have hclockOwn := hclock.filter fun event => event.call.key = key
    have hnowOwn : ∀ event ∈ events.filter fun event => event.call.key = key,
        now ≤ event.clock.cleanup := fun event hevent =>
      hnow event (List.mem_filter.mp hevent).1
    have hservedOwn := (served_run hsound (safeRun_of_key
      (fun _ hnil => absurd hnil List.not_mem_nil) hown) hclockOwn hnowOwn).1
    have hasks : asksOf family key (events.filter fun event => event.call.key = key) =
        asksOf family key events := by
      rw [asksOf, asksOf, List.filter_filter]
      simp only [Event.isFor, ← Bool.decide_and, and_assoc, and_self]
    rw [run, decisionsOn_runWith rfl hservedOwn hclockOwn hnowOwn (hfull family key), hasks]
  · rw [decisionsOn_runWith rfl hwithout hclock hnow (hfull family key)]
    exact decisionsOn_runWith rfl hserved hclock hnow (hfull family key)

end

/-! ## Where the law fails -/

section

variable {Key : Type*} [DecidableEq Key]
  {step : TokenBucketRateLimiter Key → Event Key → TokenBucketRateLimiter Key × Bool × ℚ}

omit [DecidableEq Key] in
theorem runWith_append (limiter : TokenBucketRateLimiter Key) (events more : List (Event Key)) :
    runWith step limiter (events ++ more) =
      ((runWith step (runWith step limiter events).1 more).1,
        (runWith step limiter events).2 ++
          (runWith step (runWith step limiter events).1 more).2) := by
  induction events generalizing limiter with
  | nil => rfl
  | cons event events ih => rw [List.cons_append, runWith_cons, runWith_cons, ih, List.cons_append]

omit [DecidableEq Key] in
theorem run_append [DecidableEq Key] (limiter : TokenBucketRateLimiter Key)
    (events more : List (Event Key)) :
    (run limiter (events ++ more)).1 = (run (run limiter events).1 more).1 := by
  rw [run, runWith_append]
  rfl

/-- One request for each of the keys. -/
def requestsFor (clock : Clock) (keys : List Key) : List (Event Key) :=
  keys.map fun key => ⟨clock, .request key⟩

/-- As long as there are few buckets, requests for new keys add one each, and that is all. -/
theorem run_requestsFor (clock : Clock) {keys : List Key} (hkeys : keys.Nodup)
    (limiter : TokenBucketRateLimiter Key) (hnew : ∀ key ∈ keys, key ∉ limiter.requestBuckets.keys)
    (hfew : limiter.requestBuckets.size + keys.length ≤ maxRateLimiterBuckets + 1) :
    let last := (run limiter (requestsFor clock keys)).1
    last.requestBuckets.size = limiter.requestBuckets.size + keys.length ∧
      (∀ other, other ∉ keys →
        last.requestBuckets.get? other = limiter.requestBuckets.get? other) ∧
      last.tokenBuckets = limiter.tokenBuckets ∧
      last.tokensPerMinute = limiter.tokensPerMinute := by
  induction keys generalizing limiter with
  | nil => exact ⟨rfl, fun _ _ => rfl, rfl, rfl⟩
  | cons key keys ih =>
      obtain ⟨hfresh, hkeys⟩ := List.nodup_cons.mp hkeys
      obtain ⟨hkey, hnew⟩ := List.forall_mem_cons.mp hnew
      rw [List.length_cons] at hfew
      have hset : ∃ state, (perform limiter ⟨clock, .request key⟩).1 =
          { limiter with requestBuckets := limiter.requestBuckets.set key state } := by
        show ∃ state, (checkRequest limiter clock key).1 = _
        rw [checkRequest, if_neg (by omega)]
        exact ⟨_, rfl⟩
      obtain ⟨state, hset⟩ := hset
      have hsize : (limiter.requestBuckets.set key state).size =
          limiter.requestBuckets.size + 1 := by
        rw [Dict.size, Dict.entries_set_of_not_mem hkey, List.length_append]
        rfl
      have hnewer : ∀ other ∈ keys, other ∉ (limiter.requestBuckets.set key state).keys := by
        intro other hother hmem
        rcases Dict.mem_keys_set.mp hmem with rfl | hold
        · exact hfresh hother
        · exact hnew other hother hold
      obtain ⟨hsizes, hgets, hrest⟩ := ih hkeys
        { limiter with requestBuckets := limiter.requestBuckets.set key state } hnewer
        (by dsimp only; omega)
      rw [requestsFor, List.map_cons, run, runWith_cons, hset]
      refine ⟨hsizes.trans ?_, fun other hother => ?_, hrest⟩
      · rw [List.length_cons]
        dsimp only
        omega
      · rw [List.mem_cons, not_or] at hother
        refine (hgets other hother.2).trans ?_
        rw [Dict.get?_set, if_neg hother.1]

theorem runWithoutCleanup_requestsFor (clock : Clock) (keys : List Key)
    (limiter : TokenBucketRateLimiter Key) :
    let last := (runWith performWithoutCleanup limiter (requestsFor clock keys)).1
    last.tokenBuckets = limiter.tokenBuckets ∧
      last.tokensPerMinute = limiter.tokensPerMinute := by
  induction keys generalizing limiter with
  | nil => exact ⟨rfl, rfl⟩
  | cons key keys ih => exact ih _

end

def steady (now : ℚ) : Clock := ⟨now, now, now, le_rfl, le_rfl⟩

def keyOf (size : ℕ) : Text := List.replicate size (codePoint 'k')

/-- A key asks for a request, and later for all of its tokens. -/
def opening : List (Event Text) :=
  [⟨steady 0, .request (keyOf 0)⟩, ⟨steady 700, .tokens (keyOf 0) 100000⟩]

/-- Then a thousand others come. -/
def crowded : List (Event Text) :=
  opening ++ requestsFor (steady 700) ((List.range 1000).map fun number => keyOf (number + 1))

/-- One more, and the key asks for all of its tokens again, two seconds after the first time. -/
def cleanedUp : List (Event Text) :=
  [⟨steady 701, .request (keyOf 1001)⟩, ⟨steady 702, .tokens (keyOf 0) 100000⟩]

theorem nodup_keyOf : ((List.range 1000).map fun number => keyOf (number + 1)).Nodup := by
  refine List.nodup_range.map fun left right heq => ?_
  have hlength := congrArg List.length heq
  simpa [keyOf] using hlength

/-- What two calls at the end of a run decide last. -/
theorem getLast?_runWith {Key : Type*}
    {step : TokenBucketRateLimiter Key → Event Key → TokenBucketRateLimiter Key × Bool × ℚ}
    (limiter : TokenBucketRateLimiter Key) (events : List (Event Key)) (event last : Event Key) :
    (runWith step limiter (events ++ [event, last])).2.getLast? =
      some (step (step (runWith step limiter events).1 event).1 last).2 := by
  rw [runWith_append, runWith_cons, runWith_cons, List.getLast?_append_cons]
  rfl

/-- The requests of the key are stale, and there are too many buckets. -/
theorem run_crowded :
    maxRateLimiterBuckets < (run (.new 60 100000) crowded).1.requestBuckets.size ∧
      (run (.new 60 100000) crowded).1.tokensPerMinute = 100000 ∧
      keyOf 0 ∈ staleBucketKeys
        ((run (.new 60 100000) crowded).1.requestBuckets.mapValues (·.lastUpdate)) 701 600 := by
  rw [crowded, run_append]
  obtain ⟨state, hstate, hupdate⟩ : ∃ state, (run (.new 60 100000) opening).1.requestBuckets =
      Dict.empty.set (keyOf 0) state ∧ state.lastUpdate = 0 := ⟨_, rfl, rfl⟩
  have hrate : (run (.new 60 100000) opening).1.tokensPerMinute = 100000 := rfl
  generalize (run (.new 60 100000) opening).1 = opened at hstate hrate ⊢
  have hnew : ∀ key ∈ (List.range 1000).map fun number => keyOf (number + 1),
      key ∉ opened.requestBuckets.keys := by
    intro key hkey hmem
    rw [hstate] at hmem
    obtain ⟨number, -, rfl⟩ := List.mem_map.mp hkey
    rcases Dict.mem_keys_set.mp hmem with heq | hnil
    · exact absurd (congrArg List.length heq) (by simp [keyOf])
    · exact absurd hnil List.not_mem_nil
  have hsize : opened.requestBuckets.size = 1 := by
    rw [hstate]
    rfl
  have hlength : ((List.range 1000).map fun number => keyOf (number + 1)).length = 1000 := by
    rw [List.length_map, List.length_range]
  have hother : keyOf 0 ∉ (List.range 1000).map fun number => keyOf (number + 1) := by
    intro hmem
    obtain ⟨number, -, heq⟩ := List.mem_map.mp hmem
    exact absurd (congrArg List.length heq) (by simp [keyOf])
  have hkeys := nodup_keyOf
  generalize (List.range 1000).map (fun number => keyOf (number + 1)) = keys at *
  obtain ⟨hmany, hold, -, hlast⟩ := run_requestsFor (steady 700) hkeys opened hnew (by
    rw [hsize, hlength]
    decide)
  refine ⟨?_, hlast.trans hrate, mem_staleBucketKeys.mpr
    ⟨state, (hold _ hother).trans ?_, ?_⟩⟩
  · rw [hmany, hsize, hlength]
    decide
  · rw [hstate, Dict.get?_set, if_pos rfl]
  · rw [hupdate]
    norm_num

theorem checkTokens_decision {limiter : TokenBucketRateLimiter Text} {rate : ℚ}
    (hrate : 0 < rate) (hlimiter : limiter.tokensPerMinute = rate) (clock : Clock) (key : Text)
    (tokenCount : ℤ) :
    (checkTokens limiter clock key tokenCount).2 = decisionAt rate tokenCount
      (levelAt rate (rate / 60) (stored limiter.tokenBuckets rate key) clock.refilled) := by
  subst hlimiter
  exact congrArg Prod.snd (checkBucket_eq hrate clock key (tokenCount : ℚ))

variable {reached : TokenBucketRateLimiter Text}

/-- A cleanup that takes the bucket of the key gives it all of its tokens. -/
theorem granted_behind_cleanup (hmany : maxRateLimiterBuckets < reached.requestBuckets.size)
    (hrate : reached.tokensPerMinute = 100000)
    (hstale : keyOf 0 ∈ staleBucketKeys (reached.requestBuckets.mapValues (·.lastUpdate)) 701 600) :
    (perform (perform reached ⟨steady 701, .request (keyOf 1001)⟩).1
      ⟨steady 702, .tokens (keyOf 0) 100000⟩).2 = (true, 0) := by
  have hpositive : (0 : ℚ) < 100000 := by norm_num
  have hgone : (cleanupStaleBuckets reached 701).tokenBuckets.get? (keyOf 0) = none := by
    have hboth := buckets_cleanup reached 701 .tokens (keyOf 0)
    rwa [if_pos hstale] at hboth
  have hlimit : (cleanupStaleBuckets reached 701).tokensPerMinute = 100000 :=
    (rate_cleanup reached 701 .tokens).trans hrate
  show (checkTokens (checkRequest reached (steady 701) (keyOf 1001)).1 (steady 702) (keyOf 0)
    100000).2 = (true, 0)
  rw [checkRequest, if_pos hmany]
  have hadmitted : ∀ cleaned : TokenBucketRateLimiter Text,
      cleaned.tokenBuckets.get? (keyOf 0) = none → cleaned.tokensPerMinute = 100000 →
        (checkTokens (admitRequest cleaned (steady 701) (keyOf 1001)).1 (steady 702) (keyOf 0)
          100000).2 = (true, 0) := by
    intro cleaned hnone hcleaned
    have hlast : (admitRequest cleaned (steady 701) (keyOf 1001)).1.tokenBuckets =
        cleaned.tokenBuckets := rfl
    have hsame : (admitRequest cleaned (steady 701) (keyOf 1001)).1.tokensPerMinute = 100000 :=
      hcleaned
    rw [checkTokens_decision hpositive hsame, hlast, stored, hnone, levelAt_fresh hpositive]
    norm_num [decisionAt, consumeFromBucket]
  exact hadmitted _ hgone hlimit

/-- Two seconds after all tokens were used most of them are missing. -/
theorem refused_without_cleanup (hstate : reached.tokenBuckets.get? (keyOf 0) = some ⟨0, 700⟩)
    (hrate : reached.tokensPerMinute = 100000) :
    (performWithoutCleanup
      (performWithoutCleanup reached ⟨steady 701, .request (keyOf 1001)⟩).1
      ⟨steady 702, .tokens (keyOf 0) 100000⟩).2 = (false, 58) := by
  show (checkTokens (admitRequest reached (steady 701) (keyOf 1001)).1 (steady 702) (keyOf 0)
    100000).2 = (false, 58)
  have hpositive : (0 : ℚ) < 100000 := by norm_num
  have hlast : (admitRequest reached (steady 701) (keyOf 1001)).1.tokenBuckets =
      reached.tokenBuckets := rfl
  have hsame : (admitRequest reached (steady 701) (keyOf 1001)).1.tokensPerMinute = 100000 := hrate
  rw [checkTokens_decision hpositive hsame, hlast, stored, hstate]
  norm_num [decisionAt, consumeFromBucket, levelAt, steady]

theorem tokenBuckets_opening :
    (runWith performWithoutCleanup (.new 60 100000) opening).1.tokenBuckets.get? (keyOf 0) =
      some ⟨0, 700⟩ := by
  have hpositive : (0 : ℚ) < 100000 := by norm_num
  have hempty : stored Dict.empty 100000 (keyOf 0) = ⟨100000, 0⟩ := rfl
  show (checkBucket Dict.empty 100000 (steady 700) (keyOf 0) (100000 : ℤ)).1.get? (keyOf 0) = _
  rw [checkBucket_eq hpositive, Dict.get?_set, if_pos rfl, hempty, draw, levelAt_fresh hpositive]
  norm_num [steady]

theorem refused_last (keys : List Text) :
    (runWith performWithoutCleanup (.new 60 100000)
      (opening ++ requestsFor (steady 700) keys ++ cleanedUp)).2.getLast? =
        some (false, 58) := by
  rw [cleanedUp, getLast?_runWith, runWith_append]
  obtain ⟨hbuckets, hrate⟩ := runWithoutCleanup_requestsFor (steady 700) keys
    (runWith performWithoutCleanup (.new 60 100000) opening).1
  have hstate := tokenBuckets_opening
  rw [← hbuckets] at hstate
  exact congrArg some (refused_without_cleanup hstate hrate)

theorem nonDecreasing_crowded (keys : List Text) :
    NonDecreasing (opening ++ requestsFor (steady 700) keys ++ cleanedUp) := by
  norm_num [NonDecreasing, opening, requestsFor, cleanedUp, steady, List.pairwise_append,
    List.pairwise_map]
  refine ⟨?_, ?_, List.pairwise_of_forall fun _ _ => trivial⟩
  · rintro event (⟨key, -, rfl⟩ | rfl | rfl)
    all_goals norm_num
  · rintro event (⟨key, -, rfl⟩ | rfl | rfl)
    all_goals norm_num

/-- The cleanup takes the tokens of the key with its stale requests, and the key gets all of its
tokens once more.  Without the cleanup it would have had to wait. -/
theorem tokens_granted_twice :
    let limiter : TokenBucketRateLimiter Text := .new 60 100000
    NonDecreasing (crowded ++ cleanedUp) ∧
      (run limiter (crowded ++ cleanedUp)).2.getLast? = some (true, 0) ∧
      (runWith performWithoutCleanup limiter (crowded ++ cleanedUp)).2.getLast? =
        some (false, 58) := by
  intro limiter
  refine ⟨nonDecreasing_crowded _, ?_, ?_⟩
  · obtain ⟨hmany, hrate, hstale⟩ := run_crowded
    rw [run, cleanedUp, getLast?_runWith]
    rw [run] at hmany hrate hstale
    rw [granted_behind_cleanup hmany hrate hstale]
  · rw [crowded]
    exact refused_last _

theorem rate_law_two :
    let calls : List (Event Text) := [⟨steady 0, .tokens (keyOf 1) 100000⟩,
      ⟨steady 30, .tokens (keyOf 1) 50000⟩]
    allowedOf .tokens (keyOf 1) 0 (0 + 30) calls (run (.new 60 100000) calls).2 ≤ 150000 := by
  have hsafe : SafeRun (.new 60 100000 : TokenBucketRateLimiter Text)
      [⟨steady 0, .tokens (keyOf 1) 100000⟩, ⟨steady 30, .tokens (keyOf 1) 50000⟩] :=
    ⟨show (0 : ℤ) ≤ 100000 by decide, show (0 : ℤ) ≤ 50000 by decide, trivial⟩
  have hlaw := (rate_law (60 : ℚ) 100000 (by norm_num) (by norm_num) _
    (by simp [NonDecreasing, steady]) hsafe).2.1 .tokens (keyOf 1) 0 30 (by norm_num)
  refine hlaw.trans (le_of_eq ?_)
  norm_num [TokenBucketRateLimiter.rate, TokenBucketRateLimiter.new]

end Legroom.RateLimiter
