import Legroom.Lib.Python.Dict
import Legroom.Transforms.LosslessRouter
import Mathlib.Data.Rat.Floor

/-!
# Decisions about blocks

Whether a text is sent compressed is decided anew only if neither the skip set nor the result
cache answers.  A frozen verdict overrules the threshold of the turn.
-/

namespace Legroom.BlockDecisions

open Python LosslessCompaction LosslessRouter

/-! ## Compressions -/

/-- An entry of a strategy chain. -/
inductive ChainLink where
  | lossless (kind : Kind)
  | strategy (strategy : CompressionStrategy)
  | relevanceSplit
deriving DecidableEq

def ChainLink.isLossless : ChainLink → Bool
  | .lossless _ => true
  | _ => false

/-- What `compress` returns, as far as the gates look at it. -/
structure CompressionResult where
  compressed : Text
  strategyUsed : CompressionStrategy
  strategyChain : List ChainLink
  compressionRatio : ℚ

/-- Where a text of a request is found. -/
inductive Place where
  | message (isTool : Bool)
  | toolResult
  | textBlock (isTool : Bool)
deriving DecidableEq

/-- A text is decided about as the string of a message or in a block of its content. -/
inductive Path where
  | message
  | block
deriving DecidableEq

def Place.path : Place → Path
  | .message _ => .message
  | _ => .block

/-- The role is asked for only where the text is the string of a message. -/
def Place.enforceReversibility : Place → Bool
  | .message isTool => isTool
  | .toolResult => true
  | .textBlock _ => false

structure Block (S : Type) where
  content : Text
  place : Place
  /-- The context, the bias and what else the compressors look at. -/
  setting : S

def Block.path {S : Type} (block : Block S) : Path := block.place.path

def Block.enforceReversibility {S : Type} (block : Block S) : Bool :=
  block.place.enforceReversibility

/-- What the cache keeps as the strategy. -/
inductive StoredStrategy where
  | used (strategy : CompressionStrategy)
  | folded (chain : List ChainLink)
deriving DecidableEq

/-- No decision looks at the block from which a result was made. -/
structure CacheEntry (S : Type) where
  compressed : Text
  ratio : ℚ
  strategy : StoredStrategy
  createdAt : ℚ
  source : Block S

/-- The three ways to point to a stored original. -/
def retrievalMarkers : List (List (Regex.Piece CodePoint)) :=
  [Regex.literal (text "Retrieve more: hash="), Regex.literal (text "Retrieve original: hash="),
    Regex.literal (text "<<ccr:") ++ .run (fun char => char != codePoint '>') 1 none true false ::
      Regex.literal (text ">>")]

def hasRetrievalMarker (shown : Text) : Bool :=
  retrievalMarkers.any fun pattern => !(Regex.findAll pattern 0 none shown).isEmpty

def lossyUnmarkedStrategies : List CompressionStrategy := [.kompress, .text, .codeAware]

/-- The router.  Its compressors are deterministic in the block and its setting. -/
structure Router (K S : Type) where
  key : Block S → K
  compress : Block S → CompressionResult
  countText : Text → ℕ
  ttlSeconds : ℚ
  ccrInjectMarker : Bool
  freezeDecision : Bool

structure RouterState (K S : Type) where
  results : K → Option (CacheEntry S)
  skip : K → Option ℚ
  frozenVerdicts : Dict K Bool

/-- The inputs of one decision beside the block. -/
structure Turn where
  now : ℚ
  minRatio : ℚ
  modelReady : Bool
  /-- The net-cost policy is off, or it lets the rewrite pass. -/
  netCostAllows : Bool

section

variable {K S : Type} (router : Router K S)

/-! ## The fresh gates -/

/-- `strategy_used` is a lossy summarizer and the text has no way back. -/
def unrecoverable (result : CompressionResult) : Bool :=
  decide (result.strategyUsed ∈ lossyUnmarkedStrategies) && !hasRetrievalMarker result.compressed

inductive Verdict where
  | accept (ratio : ℚ) (strategy : StoredStrategy)
  | unrecoverable
  | ratioTooHigh

/-- The gate on a measured ratio, with the one on reversibility. -/
def ratioGate (minRatio ratio : ℚ) (block : Block S) : Verdict :=
  let result := router.compress block
  if ratio < minRatio then
    if block.enforceReversibility && router.ccrInjectMarker && unrecoverable result then
      .unrecoverable
    else .accept ratio (.used result.strategyUsed)
  else .ratioTooHigh

def startsLossless (chain : List ChainLink) : Bool := chain.head?.any ChainLink.isLossless

/-- A fold is accepted on its length, and with a lossy pass behind it only without markers. -/
def byteAccept (result : CompressionResult) : Bool :=
  startsLossless result.strategyChain &&
    (result.strategyChain.all ChainLink.isLossless || !router.ccrInjectMarker)

def byteRatio (content compressed : Text) : ℚ := compressed.length / (max 1 content.length : ℕ)

/-- The first fold, or all links with a lossy pass among them. -/
def foldLabel (chain : List ChainLink) : StoredStrategy :=
  .folded (if chain.all ChainLink.isLossless then chain.take 1 else chain)

/-- A fold is measured in tokens where the text is a message. -/
def tokenRatio (content : Text) (result : CompressionResult) : ℚ :=
  if result.strategyChain.any ChainLink.isLossless && !content.isEmpty then
    if router.countText content = 0 then 1
    else router.countText result.compressed / router.countText content
  else result.compressionRatio

/-- The verdict of a fresh compression. -/
def fresh (minRatio : ℚ) (block : Block S) : Verdict :=
  let result := router.compress block
  match block.path with
  | .block =>
      if byteAccept router result && decide (result.compressed.length < block.content.length) then
        .accept (byteRatio block.content result.compressed) (foldLabel result.strategyChain)
      else ratioGate router minRatio result.compressionRatio block
  | .message => ratioGate router minRatio (tokenRatio router block.content result) block

/-- The compressed text, if it is accepted. -/
def freshText (minRatio : ℚ) (block : Block S) : Option Text :=
  match fresh router minRatio block with
  | .accept _ _ => some (router.compress block).compressed
  | _ => none

variable [DecidableEq K]

/-! ## The cache -/

def isSkipped (now : ℚ) (key : K) (state : RouterState K S) : Bool × RouterState K S :=
  match state.skip key with
  | some since =>
      if now - since < router.ttlSeconds then (true, state)
      else (false, { state with skip := Function.update state.skip key none })
  | none => (false, state)

def getResult (now : ℚ) (key : K) (state : RouterState K S) :
    Option (CacheEntry S) × RouterState K S :=
  match state.results key with
  | some entry =>
      if now - entry.createdAt < router.ttlSeconds then (some entry, state)
      else (none, { state with results := Function.update state.results key none })
  | none => (none, state)

def putResult (key : K) (entry : CacheEntry S) (state : RouterState K S) : RouterState K S :=
  { state with results := Function.update state.results key (some entry) }

def markSkip (now : ℚ) (key : K) (state : RouterState K S) : RouterState K S :=
  { state with skip := Function.update state.skip key (some now) }

def moveToSkip (now : ℚ) (key : K) (state : RouterState K S) : RouterState K S :=
  { state with
    results := Function.update state.results key none
    skip := Function.update state.skip key (some now) }

def frozenVerdictsMax : ℕ := 4096

omit [DecidableEq K] in
theorem nodup_drop (verdicts : Dict K Bool) :
    ((verdicts.entries.drop 1).map Prod.fst).Nodup :=
  verdicts.nodup.sublist ((List.drop_sublist 1 _).map Prod.fst)

def evictOldest (verdicts : Dict K Bool) : Dict K Bool :=
  ⟨verdicts.entries.drop 1, nodup_drop verdicts⟩

/-- The oldest verdict goes where there is no room. -/
def recordFrozenVerdict (key : K) (verdict : Bool) (state : RouterState K S) : RouterState K S :=
  let verdicts := state.frozenVerdicts
  let kept := if (verdicts.get? key).isNone ∧ frozenVerdictsMax ≤ verdicts.size then
    evictOldest verdicts else verdicts
  { state with frozenVerdicts := kept.set key verdict }

def getFrozenVerdict (key : K) (state : RouterState K S) : Option Bool :=
  state.frozenVerdicts.get? key

def frozenVerdictRecoverable (strategy : StoredStrategy) (compressed : Text) : Bool :=
  match strategy with
  | .used strategy =>
      !(decide (strategy ∈ lossyUnmarkedStrategies) && !hasRetrievalMarker compressed)
  | .folded _ => true

/-- The threshold for a cached result. -/
def acceptThreshold (minRatio : ℚ) (key : K) (state : RouterState K S) : ℚ :=
  if router.freezeDecision ∧ getFrozenVerdict key state = some true then 1 else minRatio

/-! ## Decisions -/

/-- A text that is sent compressed, or as it is. -/
abbrev Emission := Option Text

/-- Freeze a verdict if the source does so. -/
def freezeIf (condition : Bool) (key : K) (verdict : Bool) (state : RouterState K S) :
    RouterState K S :=
  if router.freezeDecision && condition then recordFrozenVerdict key verdict state else state

/-- The cache after a fresh compression. -/
def storeFresh (turn : Turn) (block : Block S) (state : RouterState K S) :
    Emission × RouterState K S :=
  let key := router.key block
  let compressed := (router.compress block).compressed
  match fresh router turn.minRatio block with
  | .accept ratio strategy =>
      -- The block path refuses to freeze what cannot be recovered, the message path does not.
      let recoverable := block.path = .message ∨ frozenVerdictRecoverable strategy compressed
      (some compressed, freezeIf router recoverable key true
        (putResult key ⟨compressed, ratio, strategy, turn.now, block⟩ state))
  | .unrecoverable => (none, markSkip turn.now key state)
  | .ratioTooHigh =>
      (none, freezeIf router turn.modelReady key false (markSkip turn.now key state))

/-- `_compress_block_content` -/
def compressBlockContent (turn : Turn) (block : Block S) (state : RouterState K S) :
    Emission × RouterState K S :=
  let key := router.key block
  match isSkipped router turn.now key state with
  | (true, state) => (none, state)
  | (false, state) =>
      match getResult router turn.now key state with
      | (some entry, state) =>
          if entry.ratio < acceptThreshold router turn.minRatio key state then
            (some entry.compressed,
              freezeIf router (frozenVerdictRecoverable entry.strategy entry.compressed) key true
                state)
          else (none, moveToSkip turn.now key state)
      | (none, state) => storeFresh router turn block state

/-- The first pass over a message; what is not decided here is left to the parallel pass. -/
def lookupMessage (turn : Turn) (block : Block S) (state : RouterState K S) :
    Option Emission × RouterState K S :=
  let key := router.key block
  match isSkipped router turn.now key state with
  | (true, state) => (some none, state)
  | (false, state) =>
      match getResult router turn.now key state with
      | (some entry, state) =>
          if entry.ratio < acceptThreshold router turn.minRatio key state then
            if turn.netCostAllows then
              (some (some entry.compressed), freezeIf router true key true state)
            else (some none, state)
          else (some none, moveToSkip turn.now key state)
      | (none, state) => (none, state)

/-- The merge of a message that was compressed in parallel. -/
def mergeMessage (turn : Turn) (block : Block S) (state : RouterState K S) :
    Emission × RouterState K S :=
  let (emission, state) := storeFresh router turn block state
  (if turn.netCostAllows then emission else none, state)

/-! ## Runs -/

/-- One decision of a call of `apply`, in the order in which they are made. -/
structure Step (S : Type) where
  block : Block S
  turn : Turn
  /-- The merge after the parallel pass, for a message. -/
  isMerge : Bool

def step (current : Step S) (state : RouterState K S) : Option Emission × RouterState K S :=
  match current.block.path, current.isMerge with
  | .block, _ =>
      let (emission, state) := compressBlockContent router current.turn current.block state
      (some emission, state)
  | .message, false => lookupMessage router current.turn current.block state
  | .message, true =>
      let (emission, state) := mergeMessage router current.turn current.block state
      (some emission, state)

def RouterState.empty : RouterState K S := ⟨fun _ => none, fun _ => none, Dict.empty⟩

/-- Each decision of a run with the state before it. -/
def run : RouterState K S → List (Step S) → List (Step S × RouterState K S × Option Emission)
  | _, [] => []
  | state, current :: rest =>
      (current, state, (step router current state).1) :: run (step router current state).2 rest

/-! ## Parts of a decision -/

variable {router}

@[simp]
theorem freezeIf_results (condition : Bool) (key : K) (verdict : Bool) (state : RouterState K S) :
    (freezeIf router condition key verdict state).results = state.results := by
  rw [freezeIf]
  split_ifs
  · rfl
  · rfl

@[simp]
theorem freezeIf_skip (condition : Bool) (key : K) (verdict : Bool) (state : RouterState K S) :
    (freezeIf router condition key verdict state).skip = state.skip := by
  rw [freezeIf]
  split_ifs
  · rfl
  · rfl

theorem isSkipped_cases (router : Router K S) (now : ℚ) (key : K) (state : RouterState K S) :
    (∃ since, state.skip key = some since ∧ isSkipped router now key state = (true, state)) ∨
      ∃ after, isSkipped router now key state = (false, after) ∧ after.results = state.results ∧
        after.frozenVerdicts = state.frozenVerdicts ∧ after.skip key = none ∧
          ∀ other since, after.skip other = some since → state.skip other = some since := by
  rw [isSkipped]
  cases hskip : state.skip key with
  | none => exact Or.inr ⟨state, rfl, rfl, rfl, hskip, fun _ _ => id⟩
  | some since =>
      dsimp only
      split_ifs
      · exact Or.inl ⟨since, rfl, rfl⟩
      · refine Or.inr ⟨_, rfl, rfl, rfl, Function.update_self key none state.skip, ?_⟩
        intro other found hfound
        dsimp only at hfound
        by_cases hother : other = key
        · rw [hother, Function.update_self] at hfound
          cases hfound
        · rwa [Function.update_of_ne hother] at hfound

theorem getResult_cases (router : Router K S) (now : ℚ) (key : K) (state : RouterState K S) :
    (∃ entry, state.results key = some entry ∧
        getResult router now key state = (some entry, state)) ∨
      ∃ after, getResult router now key state = (none, after) ∧ after.skip = state.skip ∧
        after.frozenVerdicts = state.frozenVerdicts ∧ after.results key = none ∧
          ∀ other entry, after.results other = some entry → state.results other = some entry := by
  rw [getResult]
  cases hresult : state.results key with
  | none => exact Or.inr ⟨state, rfl, rfl, rfl, hresult, fun _ _ => id⟩
  | some entry =>
      dsimp only
      split_ifs
      · exact Or.inl ⟨entry, rfl, rfl⟩
      · refine Or.inr ⟨_, rfl, rfl, rfl, Function.update_self key none state.results, ?_⟩
        intro other found hfound
        dsimp only at hfound
        by_cases hother : other = key
        · rw [hother, Function.update_self] at hfound
          cases hfound
        · rwa [Function.update_of_ne hother] at hfound

/-! ## A threshold that does not change -/

/-- What the blocks of a run have to meet: a fold that is accepted on its length also passes the
threshold for cached results, and blocks with one key get one verdict. -/
structure Agreeing (router : Router K S) (minRatio : ℚ) (blocks : List (Block S)) : Prop where
  bytes : ∀ block ∈ blocks, block.path = .block →
    byteAccept router (router.compress block) = true →
      (router.compress block).compressed.length < block.content.length →
        byteRatio block.content (router.compress block).compressed < minRatio
  ceiling : router.freezeDecision = true → minRatio ≤ 1
  shared : ∀ first ∈ blocks, ∀ second ∈ blocks, router.key first = router.key second →
    freshText router minRatio first = freshText router minRatio second

variable {minRatio ratio : ℚ} {block : Block S}
variable {strategy : StoredStrategy}

omit [DecidableEq K] in
theorem ratioGate_accept {found : ℚ}
    (haccept : ratioGate router minRatio ratio block = .accept found strategy) :
    found = ratio ∧ ratio < minRatio := by
  simp only [ratioGate] at haccept
  split_ifs at haccept with hratio hlossy
  cases haccept
  exact ⟨rfl, hratio⟩

variable {blocks : List (Block S)}

omit [DecidableEq K] in
theorem ratio_lt_of_fresh (hagreeing : Agreeing router minRatio blocks) (hblock : block ∈ blocks)
    (hfresh : fresh router minRatio block = .accept ratio strategy) : ratio < minRatio := by
  simp only [fresh] at hfresh
  cases hpath : block.path with
  | block =>
      rw [hpath] at hfresh
      dsimp only at hfresh
      split_ifs at hfresh with hbytes
      · cases hfresh
        rw [Bool.and_eq_true, decide_eq_true_eq] at hbytes
        exact hagreeing.bytes block hblock hpath hbytes.1 hbytes.2
      · obtain ⟨rfl, hratio⟩ := ratioGate_accept hfresh
        exact hratio
  | message =>
      rw [hpath] at hfresh
      obtain ⟨rfl, hratio⟩ := ratioGate_accept hfresh
      exact hratio

/-- The cache has only answers that fresh compressions would give. -/
def Faithful (router : Router K S) (minRatio : ℚ) (blocks : List (Block S))
    (state : RouterState K S) : Prop :=
  ∀ block ∈ blocks,
    (∀ entry, state.results (router.key block) = some entry →
      freshText router minRatio block = some entry.compressed ∧ entry.ratio < minRatio) ∧
    ∀ since, state.skip (router.key block) = some since → freshText router minRatio block = none

variable {state : RouterState K S}
variable {after : RouterState K S}

omit [DecidableEq K] in
theorem Faithful.mono (hstate : Faithful router minRatio blocks state)
    (hresults : ∀ key entry, after.results key = some entry → state.results key = some entry)
    (hskip : ∀ key since, after.skip key = some since → state.skip key = some since) :
    Faithful router minRatio blocks after := fun block hblock =>
  ⟨fun entry hentry => (hstate block hblock).1 entry (hresults _ _ hentry),
    fun since hsince => (hstate block hblock).2 since (hskip _ _ hsince)⟩

theorem Faithful.put (hagreeing : Agreeing router minRatio blocks)
    (hstate : Faithful router minRatio blocks state) (hblock : block ∈ blocks)
    {entry : CacheEntry S} (htext : freshText router minRatio block = some entry.compressed)
    (hratio : entry.ratio < minRatio) :
    Faithful router minRatio blocks (putResult (router.key block) entry state) := by
  intro other hother
  refine ⟨fun found hfound => ?_, (hstate other hother).2⟩
  rw [putResult] at hfound
  dsimp only at hfound
  by_cases hkey : router.key other = router.key block
  · rw [hkey, Function.update_self] at hfound
    cases hfound
    exact ⟨(hagreeing.shared other hother block hblock hkey).trans htext, hratio⟩
  · rw [Function.update_of_ne hkey] at hfound
    exact (hstate other hother).1 found hfound

theorem Faithful.markSkip (hagreeing : Agreeing router minRatio blocks)
    (hstate : Faithful router minRatio blocks state) (hblock : block ∈ blocks)
    (htext : freshText router minRatio block = none) (now : ℚ) :
    Faithful router minRatio blocks (markSkip now (router.key block) state) := by
  intro other hother
  refine ⟨(hstate other hother).1, fun since hsince => ?_⟩
  rw [BlockDecisions.markSkip] at hsince
  dsimp only at hsince
  by_cases hkey : router.key other = router.key block
  · exact (hagreeing.shared other hother block hblock hkey).trans htext
  · rw [Function.update_of_ne hkey] at hsince
    exact (hstate other hother).2 since hsince

theorem faithful_freezeIf (hstate : Faithful router minRatio blocks state) (condition : Bool)
    (key : K) (verdict : Bool) :
    Faithful router minRatio blocks (freezeIf router condition key verdict state) :=
  hstate.mono (fun _ _ hentry => by rwa [freezeIf_results] at hentry)
    fun _ _ hsince => by rwa [freezeIf_skip] at hsince

variable {turn : Turn}

theorem storeFresh_faithful (hagreeing : Agreeing router minRatio blocks)
    (hstate : Faithful router minRatio blocks state) (hblock : block ∈ blocks)
    (hturn : turn.minRatio = minRatio) :
    (storeFresh router turn block state).1 = freshText router minRatio block ∧
      Faithful router minRatio blocks (storeFresh router turn block state).2 := by
  have htext : freshText router minRatio block =
      match fresh router minRatio block with
      | .accept _ _ => some (router.compress block).compressed
      | _ => none := rfl
  rw [storeFresh, hturn]
  cases hfresh : fresh router minRatio block with
  | accept ratio strategy =>
      rw [hfresh] at htext
      refine ⟨htext.symm, faithful_freezeIf (hstate.put hagreeing hblock htext ?_) _ _ _⟩
      exact ratio_lt_of_fresh hagreeing hblock hfresh
  | unrecoverable =>
      rw [hfresh] at htext
      exact ⟨htext.symm, hstate.markSkip hagreeing hblock htext _⟩
  | ratioTooHigh =>
      rw [hfresh] at htext
      exact ⟨htext.symm, faithful_freezeIf (hstate.markSkip hagreeing hblock htext _) _ _ _⟩

theorem lt_acceptThreshold {key : K} (hagreeing : Agreeing router minRatio blocks)
    (hratio : ratio < minRatio) : ratio < acceptThreshold router minRatio key state := by
  rw [acceptThreshold]
  split_ifs with hfrozen
  · exact hratio.trans_le (hagreeing.ceiling hfrozen.1)
  · exact hratio

/-- What the skip set and the result cache answer is what a fresh compression would give. -/
theorem cached_faithful (hagreeing : Agreeing router minRatio blocks)
    (hstate : Faithful router minRatio blocks state) (hblock : block ∈ blocks) {now : ℚ}
    (hskipped : isSkipped router now (router.key block) state = (false, after)) :
    Faithful router minRatio blocks after ∧
      ((∃ entry, getResult router now (router.key block) after = (some entry, after) ∧
          freshText router minRatio block = some entry.compressed ∧
          entry.ratio < acceptThreshold router minRatio (router.key block) after) ∨
        ∃ behind, getResult router now (router.key block) after = (none, behind) ∧
          Faithful router minRatio blocks behind) := by
  have hafter : Faithful router minRatio blocks after := by
    rcases isSkipped_cases router now (router.key block) state with
      ⟨since, -, hyes⟩ | ⟨found, hno, hresults, -, -, hskip⟩
    · rw [hyes] at hskipped
      cases hskipped
    · rw [hno] at hskipped
      cases hskipped
      exact hstate.mono (fun key entry hentry => by rwa [hresults] at hentry) hskip
  refine ⟨hafter, ?_⟩
  rcases getResult_cases router now (router.key block) after with
    ⟨entry, hentry, hresult⟩ | ⟨behind, hresult, hskip, -, -, hresults⟩
  · obtain ⟨htext, hratio⟩ := (hafter block hblock).1 entry hentry
    exact Or.inl ⟨entry, hresult, htext, lt_acceptThreshold hagreeing hratio⟩
  · exact Or.inr ⟨behind, hresult,
      hafter.mono hresults fun key since hsince => by rwa [hskip] at hsince⟩

theorem compressBlockContent_faithful (hagreeing : Agreeing router minRatio blocks)
    (hstate : Faithful router minRatio blocks state) (hblock : block ∈ blocks)
    (hturn : turn.minRatio = minRatio) :
    (compressBlockContent router turn block state).1 = freshText router minRatio block ∧
      Faithful router minRatio blocks (compressBlockContent router turn block state).2 := by
  rcases isSkipped_cases router turn.now (router.key block) state with
    ⟨since, hsince, hskipped⟩ | ⟨after, hskipped, -⟩
  · simp only [compressBlockContent, hskipped]
    exact ⟨((hstate block hblock).2 since hsince).symm, hstate⟩
  · obtain ⟨hafter, hcached⟩ := cached_faithful hagreeing hstate hblock hskipped
    rcases hcached with ⟨entry, hresult, htext, hratio⟩ | ⟨behind, hresult, hbehind⟩
    · simp only [compressBlockContent, hskipped, hresult, hturn, if_pos hratio]
      exact ⟨htext.symm, faithful_freezeIf hafter _ _ _⟩
    · simp only [compressBlockContent, hskipped, hresult]
      exact storeFresh_faithful hagreeing hbehind hblock hturn

theorem lookupMessage_faithful (hagreeing : Agreeing router minRatio blocks)
    (hstate : Faithful router minRatio blocks state) (hblock : block ∈ blocks)
    (hturn : turn.minRatio = minRatio) (hallows : turn.netCostAllows = true) :
    (∀ emission ∈ (lookupMessage router turn block state).1,
        emission = freshText router minRatio block) ∧
      Faithful router minRatio blocks (lookupMessage router turn block state).2 := by
  rcases isSkipped_cases router turn.now (router.key block) state with
    ⟨since, hsince, hskipped⟩ | ⟨after, hskipped, -⟩
  · simp only [lookupMessage, hskipped]
    refine ⟨fun emission hemission => ?_, hstate⟩
    rw [← Option.some_inj.mp hemission, (hstate block hblock).2 since hsince]
  · obtain ⟨hafter, hcached⟩ := cached_faithful hagreeing hstate hblock hskipped
    rcases hcached with ⟨entry, hresult, htext, hratio⟩ | ⟨behind, hresult, hbehind⟩
    · simp only [lookupMessage, hskipped, hresult, hturn, if_pos hratio, if_pos hallows]
      refine ⟨fun emission hemission => ?_, faithful_freezeIf hafter _ _ _⟩
      rw [← Option.some_inj.mp hemission, htext]
    · simp only [lookupMessage, hskipped, hresult]
      exact ⟨nofun, hbehind⟩

/-- A decision gives what a fresh compression would give. -/
theorem step_faithful (hagreeing : Agreeing router minRatio blocks)
    (hstate : Faithful router minRatio blocks state) {current : Step S}
    (hblock : current.block ∈ blocks) (hturn : current.turn.minRatio = minRatio)
    (hallows : current.turn.netCostAllows = true) :
    (∀ emission ∈ (step router current state).1,
        emission = freshText router minRatio current.block) ∧
      Faithful router minRatio blocks (step router current state).2 := by
  rw [step]
  cases hpath : current.block.path with
  | block =>
      obtain ⟨hemission, hafter⟩ :=
        compressBlockContent_faithful hagreeing hstate hblock hturn
      exact ⟨fun emission hfound => Option.some_inj.mp hfound ▸ hemission, hafter⟩
  | message =>
      cases current.isMerge with
      | false => exact lookupMessage_faithful hagreeing hstate hblock hturn hallows
      | true =>
          obtain ⟨hemission, hafter⟩ := storeFresh_faithful hagreeing hstate hblock hturn
          refine ⟨fun emission hfound => ?_, hafter⟩
          simp only [mergeMessage, if_pos hallows] at hfound
          exact Option.some_inj.mp hfound ▸ hemission

/-- All decisions of a run give what fresh compressions would give. -/
theorem run_faithful (hagreeing : Agreeing router minRatio blocks) {steps : List (Step S)}
    (hstate : Faithful router minRatio blocks state)
    (hsteps : ∀ current ∈ steps, current.block ∈ blocks ∧ current.turn.minRatio = minRatio ∧
      current.turn.netCostAllows = true) :
    ∀ decision ∈ run router state steps, ∀ emission ∈ decision.2.2,
      emission = freshText router minRatio decision.1.block := by
  induction steps generalizing state with
  | nil => exact fun decision hdecision => absurd hdecision List.not_mem_nil
  | cons current rest ih =>
      obtain ⟨⟨hblock, hturn, hallows⟩, hrest⟩ := List.forall_mem_cons.mp hsteps
      obtain ⟨hemission, hafter⟩ := step_faithful hagreeing hstate hblock hturn hallows
      exact List.forall_mem_cons.mpr ⟨hemission, ih hafter hrest⟩

omit [DecidableEq K] in
theorem faithful_empty (minRatio : ℚ) (blocks : List (Block S)) :
    Faithful router minRatio blocks RouterState.empty := fun _ _ => ⟨nofun, nofun⟩

end

end Legroom.BlockDecisions
