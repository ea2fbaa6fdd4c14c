import Legroom.Lib.Python.Dict
import Mathlib.Algebra.Order.Ring.Rat

/-!
# The rate limiter

Requests and tokens are limited for each key by a bucket that fills with time.  Buckets are made
when a key is first seen, and when there are too many of them the stale ones are removed.
-/

namespace Legroom.RateLimiter

open Python

/-! ## The policy -/

structure RateLimitState where
  tokens : ℚ
  lastUpdate : ℚ

def refilledTokens (currentTokens lastUpdate now ratePerMinute : ℚ) : ℚ :=
  let elapsed := max 0 (now - lastUpdate)
  let refill := elapsed * (ratePerMinute / 60)
  min ratePerMinute (currentTokens + refill)

/-- Whether the amount is allowed, what remains, and how long to wait. -/
def consumeFromBucket (availableTokens requestedTokens ratePerMinute : ℚ) : Bool × ℚ × ℚ :=
  if requestedTokens ≤ availableTokens then (true, availableTokens - requestedTokens, 0)
  else
    (false, availableTokens, (requestedTokens - availableTokens) * (60 / ratePerMinute))

section

variable {Key : Type*} [DecidableEq Key]

omit [DecidableEq Key] in
def staleBucketKeys (lastUpdates : Dict Key ℚ) (now staleAfterSeconds : ℚ) : List Key :=
  let staleBefore := now - staleAfterSeconds
  (lastUpdates.entries.filter fun entry => entry.2 < staleBefore).map Prod.fst

/-! ## The limiter -/

structure TokenBucketRateLimiter (Key : Type*) where
  requestsPerMinute : ℚ
  tokensPerMinute : ℚ
  requestBuckets : Dict Key RateLimitState
  tokenBuckets : Dict Key RateLimitState

def TokenBucketRateLimiter.new (requestsPerMinute tokensPerMinute : ℚ) :
    TokenBucketRateLimiter Key :=
  ⟨requestsPerMinute, tokensPerMinute, .empty, .empty⟩

def maxRateLimiterBuckets : ℕ := 1000

/-- The times that a call reads, one after the other: for the cleanup, for a new bucket and for
the refill. -/
structure Clock where
  cleanup : ℚ
  created : ℚ
  refilled : ℚ
  created_le : cleanup ≤ created
  refilled_le : created ≤ refilled

variable (limiter : TokenBucketRateLimiter Key)

/-- `_cleanup_stale_buckets`. -/
def cleanupStaleBuckets (now : ℚ) : TokenBucketRateLimiter Key :=
  let staleKeys := staleBucketKeys (limiter.requestBuckets.mapValues (·.lastUpdate)) now 600
  staleKeys.foldl (fun limiter key =>
    { limiter with
      requestBuckets := limiter.requestBuckets.erase key
      tokenBuckets := limiter.tokenBuckets.erase key }) limiter

/-- The bucket of a key is refilled, and the amount is taken from it if it is there. -/
def checkBucket (buckets : Dict Key RateLimitState) (ratePerMinute : ℚ) (clock : Clock)
    (key : Key) (amount : ℚ) : Dict Key RateLimitState × Bool × ℚ :=
  let state := (buckets.get? key).getD ⟨ratePerMinute, clock.created⟩
  let available := refilledTokens state.tokens state.lastUpdate clock.refilled ratePerMinute
  let (allowed, tokens, waitSeconds) := consumeFromBucket available amount ratePerMinute
  (buckets.set key ⟨tokens, clock.refilled⟩, allowed, waitSeconds)

/-- `check_request` behind the cleanup. -/
def admitRequest (clock : Clock) (key : Key) : TokenBucketRateLimiter Key × Bool × ℚ :=
  let (buckets, decision) :=
    checkBucket limiter.requestBuckets limiter.requestsPerMinute clock key 1
  ({ limiter with requestBuckets := buckets }, decision)

def checkRequest (clock : Clock) (key : Key) : TokenBucketRateLimiter Key × Bool × ℚ :=
  if maxRateLimiterBuckets < limiter.requestBuckets.size then
    admitRequest (cleanupStaleBuckets limiter clock.cleanup) clock key
  else admitRequest limiter clock key

def checkTokens (clock : Clock) (key : Key) (tokenCount : ℤ) :
    TokenBucketRateLimiter Key × Bool × ℚ :=
  let (buckets, decision) :=
    checkBucket limiter.tokenBuckets limiter.tokensPerMinute clock key tokenCount
  ({ limiter with tokenBuckets := buckets }, decision)

/-! ## Runs -/

inductive Call (Key : Type*) where
  | request (key : Key)
  | tokens (key : Key) (tokenCount : ℤ)

structure Event (Key : Type*) where
  clock : Clock
  call : Call Key

def perform (event : Event Key) : TokenBucketRateLimiter Key × Bool × ℚ :=
  match event.call with
  | .request key => checkRequest limiter event.clock key
  | .tokens key tokenCount => checkTokens limiter event.clock key tokenCount

/-- The calls as they would be without any cleanup. -/
def performWithoutCleanup (event : Event Key) : TokenBucketRateLimiter Key × Bool × ℚ :=
  match event.call with
  | .request key => admitRequest limiter event.clock key
  | .tokens key tokenCount => checkTokens limiter event.clock key tokenCount

/-- The limiter after a run of calls, and the decisions. -/
def runWith (step : TokenBucketRateLimiter Key → Event Key →
    TokenBucketRateLimiter Key × Bool × ℚ) :
    TokenBucketRateLimiter Key → List (Event Key) →
      TokenBucketRateLimiter Key × List (Bool × ℚ)
  | limiter, [] => (limiter, [])
  | limiter, event :: events =>
      let (next, decision) := step limiter event
      let (last, decisions) := runWith step next events
      (last, decision :: decisions)

def run (events : List (Event Key)) : TokenBucketRateLimiter Key × List (Bool × ℚ) :=
  runWith perform limiter events

end

end Legroom.RateLimiter
