import Legroom.Lib.Python.Dict
import Legroom.Lib.Python.Utf8
import Legroom.Proxy.Pricing

/-!
# Savings tracker

Cumulative savings of the proxy: counters over its lifetime, over the session that is
displayed, by project and by model, and a history of checkpoints of the counters.

A time is a number of microseconds.  The tracker writes times without their fraction of a
second, and a written time stands for its second.
-/

namespace Legroom.SavingsTracker

open Python

def defaultMaxProjects : ℕ := 50
def projectNameMaxLength : ℕ := 128

/-! ## State -/

/-- Tokens and what they are worth. -/
@[ext]
structure Amount where
  tokens : ℕ
  usd : Usd
deriving DecidableEq

namespace Amount

instance : Zero Amount := ⟨⟨0, 0⟩⟩
instance : Add Amount := ⟨fun left right => ⟨left.tokens + right.tokens, left.usd + right.usd⟩⟩

instance : AddCommMonoid Amount where
  add_assoc _ _ _ := Amount.ext (add_assoc _ _ _) (add_assoc _ _ _)
  zero_add _ := Amount.ext (zero_add _) (zero_add _)
  add_zero _ := Amount.ext (add_zero _) (add_zero _)
  add_comm _ _ := Amount.ext (add_comm _ _) (add_comm _ _)
  nsmul := nsmulRec

instance : Sub Amount := ⟨fun left right => ⟨left.tokens - right.tokens, left.usd - right.usd⟩⟩

/-- Neither the tokens nor their worth are more. -/
instance : Preorder Amount where
  le left right := left.tokens ≤ right.tokens ∧ left.usd ≤ right.usd
  le_refl _ := ⟨le_rfl, le_rfl⟩
  le_trans _ _ _ hleft hright := ⟨hleft.1.trans hright.1, hleft.2.trans hright.2⟩

/-- More tokens, and their price. -/
def plus (total : Amount) (tokens : ℕ) (usd : ℚ≥0) : Amount :=
  ⟨total.tokens + tokens, Usd.round (total.usd.value + usd)⟩

theorem le_plus (total : Amount) (tokens : ℕ) (usd : ℚ≥0) : total ≤ total.plus tokens usd :=
  ⟨Nat.le_add_right _ _, Usd.le_round le_self_add⟩

theorem plus_zero (total : Amount) : total.plus 0 0 = total := by
  rw [plus, add_zero, add_zero, Usd.round_value]

end Amount

structure Lifetime where
  requests : ℕ
  compression : Amount
  cacheRead : Amount
  input : Amount
  /-- These counters come with the first request. -/
  output : Option Amount
deriving DecidableEq

/-- `get` with its default -/
def outputSaved (output : Option Amount) : Amount := output.getD 0

/-- A time without its fraction of a second. -/
abbrev Second := ℤ

structure DisplaySession where
  requests : ℕ
  compression : Amount
  cacheRead : Amount
  input : Amount
  savingsPercent : ℚ
  startedAt : Option Second
  lastActivityAt : Option Second
deriving DecidableEq

def DisplaySession.empty : DisplaySession := ⟨0, 0, 0, 0, 0, none, none⟩

/-- The counters of a model or a project. -/
structure Counters where
  requests : ℕ
  compression : Amount
  input : Amount
deriving DecidableEq

def Counters.empty : Counters := ⟨0, 0, 0⟩

structure ProjectEntry extends Counters where
  lastActivityAt : Option Second
deriving DecidableEq

def ProjectEntry.empty : ProjectEntry := ⟨.empty, none⟩

/-- A checkpoint of the lifetime counters.  Not every one has all of them. -/
structure HistoryPoint where
  timestamp : Second
  provider : Text
  model : Text
  compression : Amount
  cacheRead : Option Amount
  input : Amount
  output : Option Amount
deriving DecidableEq

structure SavingsState where
  lifetime : Lifetime
  displaySession : DisplaySession
  history : List HistoryPoint
  projects : Dict Text ProjectEntry
  byModel : Dict Text Counters

def defaultState : SavingsState where
  lifetime := ⟨0, 0, 0, 0, none⟩
  displaySession := .empty
  history := []
  projects := .empty
  byModel := .empty

structure Config where
  maxHistoryPoints : ℕ
  maxHistoryAgeDays : ℕ
  displaySessionInactivityMinutes : ℕ

/-! ## Labels and times -/

section

variable (tables : CharTables)

def unknownLabel : Text := text "unknown"

/-- `_normalize_provider` and `_normalize_model` -/
def normalizeLabel : Option Text → Text
  | some value =>
      let cleaned := strip tables value
      if cleaned = [] then unknownLabel else cleaned
  | none => unknownLabel

def normalizeProvider (provider : Option Text) : Text := normalizeLabel tables provider

def normalizeModel (model : Option Text) : Text := normalizeLabel tables model

/-- The letters of the label are no spaces. -/
def IsPlain : Prop := ∀ char ∈ unknownLabel, tables.isSpace char = false

instance : Decidable (IsPlain tables) :=
  List.decidableBAll (fun char => tables.isSpace char = false) unknownLabel

/-- A label that was normalized stays as it is. -/
theorem normalizeLabel_normalizeLabel (htables : IsPlain tables) (label : Option Text) :
    normalizeLabel tables (some (normalizeLabel tables label)) = normalizeLabel tables label := by
  have hunknown : normalizeLabel tables (some unknownLabel) = unknownLabel := by
    rw [normalizeLabel, strip_of_no_space tables htables]
    rfl
  cases label with
  | none => exact hunknown
  | some value =>
      by_cases hempty : strip tables value = []
      · have hvalue : normalizeLabel tables (some value) = unknownLabel := if_pos hempty
        rw [hvalue, hunknown]
      · have hvalue : normalizeLabel tables (some value) = strip tables value := if_neg hempty
        rw [hvalue, normalizeLabel, strip_strip]
        exact if_neg hempty

def sanitizeProjectName : Option Text → Option Text
  | some value =>
      let cleaned := strip tables ((unquote value).filter tables.isPrintable)
      if cleaned = [] then none else some (cleaned.take projectNameMaxLength)
  | none => none

/-- Microseconds in a second. -/
def second : ℤ := 1000000

/-- A time as it is written. -/
def toUtcIso (time : ℤ) : Second := time / second

/-- The time that was written. -/
def parseTimestamp (written : Second) : ℤ := written * second

/-- `max(int(value), 0)` -/
def coerceInt (value : ℤ) : ℕ := value.toNat

/-- The total that was given, or the other one. -/
def coerceTotal (given : Option ℤ) (default : ℕ) : ℕ := (given.map coerceInt).getD default

def coerceCost (given : Option ℚ) (default : ℚ≥0) : ℚ≥0 := (given.map Rat.toNNRat).getD default

def savingsPercent (tokensSaved totalInputTokens : ℕ) : ℚ :=
  let totalBefore := tokensSaved + totalInputTokens
  if 0 < totalBefore then
    Float64.roundFraction ((tokensSaved : ℚ) / totalBefore * 100 * 100) / 100
  else 0

/-! ## Bounds -/

/-- The point is not before the cutoff. -/
def isYoung (config : Config) (reference : ℤ) (point : HistoryPoint) : Bool :=
  reference - config.maxHistoryAgeDays * 86400 * second ≤ parseTimestamp point.timestamp

/-- The history without what is too old, and without the first ones of too many points. -/
def trimHistory (config : Config) (history : List HistoryPoint) (reference : ℤ) :
    List HistoryPoint :=
  let young :=
    if 0 < config.maxHistoryAgeDays then
      let filtered := history.filter (isYoung config reference)
      if filtered.isEmpty then history.drop (history.length - 1) else filtered
    else history
  if 0 < config.maxHistoryPoints then young.drop (young.length - config.maxHistoryPoints)
  else young

def isDisplaySessionExpired (config : Config) (lastActivity reference : ℤ) : Bool :=
  config.displaySessionInactivityMinutes * 60 * second < reference - lastActivity

/-- The smaller of two values, where there is none for no activity. -/
def activityBefore : Option Second → Option Second → Bool
  | none, some _ => true
  | some left, some right => left < right
  | _, none => false

def evictedBefore (left right : ProjectEntry) : Bool :=
  left.compression.tokens < right.compression.tokens ||
    (left.compression.tokens = right.compression.tokens &&
      activityBefore left.lastActivityAt right.lastActivityAt)

/-- The project other than the last one that saved least. -/
def evictProject (projects : Dict Text ProjectEntry) (name : Text) : Dict Text ProjectEntry :=
  match projects.entries.filter fun entry => entry.1 ≠ name with
  | [] => projects
  | first :: rest =>
      projects.erase (rest.foldl (fun best entry =>
        if evictedBefore entry.2 best.2 then entry else best) first).1

/-! ## Recording -/

variable (litellm : Option Litellm) (config : Config)

/-- What one call adds to the counters of a model or a project. -/
structure Delta where
  requests : ℕ
  tokensSaved : ℕ
  savingsUsd : ℚ≥0
  inputTokens : ℕ
  inputCostUsd : ℚ≥0

def Counters.add (entry : Counters) (delta : Delta) : Counters where
  requests := entry.requests + delta.requests
  compression := entry.compression.plus delta.tokensSaved delta.savingsUsd
  input := entry.input.plus delta.inputTokens delta.inputCostUsd

def recordByModel (byModel : Dict Text Counters) (model : Text) (delta : Delta) :
    Dict Text Counters :=
  let key := normalizeModel tables (some model)
  byModel.set key (((byModel.get? key).getD .empty).add delta)

def recordProject (projects : Dict Text ProjectEntry) (project : Option Text) (time : ℤ)
    (delta : Delta) : Dict Text ProjectEntry :=
  match sanitizeProjectName tables project with
  | none => projects
  | some name =>
      let entry := (projects.get? name).getD .empty
      let projects := projects.set name ⟨entry.toCounters.add delta, some (toUtcIso time)⟩
      if defaultMaxProjects < projects.size then evictProject projects name else projects

structure CompressionSavings where
  model : Text
  tokensSaved : ℤ
  provider : Option Text
  totalInputTokens : Option ℤ
  totalInputCostUsd : Option ℚ

def CompressionSavings.usd (call : CompressionSavings) : ℚ≥0 :=
  estimateCompressionSavingsUsd litellm call.model (coerceInt call.tokensSaved)

def compressionLifetime (lifetime : Lifetime) (call : CompressionSavings) : Lifetime :=
  let input := lifetime.input
  { lifetime with
    compression := lifetime.compression.plus (coerceInt call.tokensSaved) (call.usd litellm)
    input :=
      ⟨max input.tokens (coerceTotal call.totalInputTokens input.tokens),
        Usd.round (max input.usd.value (coerceCost call.totalInputCostUsd input.usd.value))⟩ }

/-- The checkpoint of compression savings has neither cache nor output counters. -/
def compressionPoint (lifetime : Lifetime) (call : CompressionSavings) (time : ℤ) :
    HistoryPoint where
  timestamp := toUtcIso time
  provider := normalizeProvider tables call.provider
  model := normalizeModel tables (some call.model)
  compression := lifetime.compression
  cacheRead := none
  input := lifetime.input
  output := none

/-- The result says whether anything was recorded. -/
def recordCompressionSavings (state : SavingsState) (call : CompressionSavings) (time : ℤ) :
    Bool × SavingsState :=
  if coerceInt call.tokensSaved = 0 then (false, state)
  else
    let lifetime := compressionLifetime litellm state.lifetime call
    (true, { state with
      lifetime := lifetime
      byModel := recordByModel tables state.byModel call.model
        ⟨0, coerceInt call.tokensSaved, call.usd litellm, 0, 0⟩
      history := trimHistory config
        (state.history ++ [compressionPoint tables lifetime call time]) time })

structure Request where
  model : Text
  inputTokens : ℤ
  tokensSaved : ℤ
  outputTokensSaved : ℤ
  provider : Option Text
  project : Option Text
  cacheReadTokens : ℤ
  cacheWriteTokens : ℤ
  uncachedInputTokens : ℤ
  totalInputTokens : Option ℤ
  totalInputCostUsd : Option ℚ

def Request.inputCostUsd (call : Request) : ℚ≥0 :=
  estimateInputCostUsd litellm call.model (coerceInt call.inputTokens)
    (coerceInt call.cacheReadTokens) (coerceInt call.cacheWriteTokens)
    (coerceInt call.uncachedInputTokens)

/-- The input totals after a request. -/
def nextInput (input : Amount) (call : Request) : Amount :=
  let tokens := input.tokens + coerceInt call.inputTokens
  let cost := input.usd.value + call.inputCostUsd litellm
  ⟨max tokens (coerceTotal call.totalInputTokens tokens),
    Usd.round (max cost (coerceCost call.totalInputCostUsd cost))⟩

def Request.compressionDelta (call : Request) (total : Amount) : Amount :=
  total.plus (coerceInt call.tokensSaved)
    (estimateCompressionSavingsUsd litellm call.model (coerceInt call.tokensSaved))

def Request.cacheReadDelta (call : Request) (total : Amount) : Amount :=
  total.plus (coerceInt call.cacheReadTokens)
    (estimateCacheSavingsUsd litellm call.model (coerceInt call.cacheReadTokens))

def Request.outputDelta (call : Request) (total : Amount) : Amount :=
  total.plus (coerceInt call.outputTokensSaved)
    (estimateOutputSavingsUsd litellm call.model (coerceInt call.outputTokensSaved))

/-- The session that goes on, or a new one. -/
def currentSession (session : DisplaySession) (time : ℤ) : DisplaySession :=
  let fresh := { DisplaySession.empty with startedAt := some (toUtcIso time) }
  match session.lastActivityAt with
  | none => fresh
  | some lastActivity =>
      if isDisplaySessionExpired config (parseTimestamp lastActivity) time then fresh else session

def recordSession (session : DisplaySession) (call : Request) (input next : Amount) (time : ℤ) :
    DisplaySession :=
  let session := currentSession config session time
  let compression := call.compressionDelta litellm session.compression
  let inputCostDelta := Usd.round (next.usd.value - input.usd.value)
  let total := session.input.plus (next.tokens - input.tokens) inputCostDelta.value
  { requests := session.requests + 1
    compression := compression
    cacheRead := call.cacheReadDelta litellm session.cacheRead
    input := total
    savingsPercent := savingsPercent compression.tokens total.tokens
    startedAt := session.startedAt.or (some (toUtcIso time))
    lastActivityAt := some (toUtcIso time) }

/-- Whether anything was saved. -/
def Request.saves (call : Request) : Bool :=
  0 < coerceInt call.tokensSaved || 0 < coerceInt call.cacheReadTokens ||
    0 < coerceInt call.outputTokensSaved

theorem saves_eq_false_iff {call : Request} :
    call.saves = false ↔ coerceInt call.tokensSaved = 0 ∧ coerceInt call.cacheReadTokens = 0 ∧
      coerceInt call.outputTokensSaved = 0 := by
  simp [Request.saves, and_assoc]

def nextLifetime (lifetime : Lifetime) (call : Request) : Lifetime where
  requests := lifetime.requests + 1
  compression := call.compressionDelta litellm lifetime.compression
  cacheRead := call.cacheReadDelta litellm lifetime.cacheRead
  input := nextInput litellm lifetime.input call
  output := some (call.outputDelta litellm (outputSaved lifetime.output))

/-- The checkpoint of a request that saved something. -/
def requestPoint (lifetime : Lifetime) (call : Request) (time : ℤ) : HistoryPoint where
  timestamp := toUtcIso time
  provider := normalizeProvider tables call.provider
  model := normalizeModel tables (some call.model)
  compression := lifetime.compression
  cacheRead := some lifetime.cacheRead
  input := lifetime.input
  output := some (outputSaved lifetime.output)

def recordRequest (state : SavingsState) (call : Request) (time : ℤ) : Bool × SavingsState :=
  let lifetime := nextLifetime litellm state.lifetime call
  let delta : Delta :=
    ⟨1, coerceInt call.tokensSaved,
      estimateCompressionSavingsUsd litellm call.model (coerceInt call.tokensSaved),
      coerceInt call.inputTokens, call.inputCostUsd litellm⟩
  (true,
    { lifetime := lifetime
      displaySession :=
        recordSession litellm config state.displaySession call state.lifetime.input
          lifetime.input time
      byModel := recordByModel tables state.byModel call.model delta
      projects := recordProject tables state.projects call.project time delta
      history :=
        if call.saves then
          trimHistory config (state.history ++ [requestPoint tables lifetime call time]) time
        else state.history })

/-! ## Runs -/

inductive Recording where
  | compressionSavings (call : CompressionSavings)
  | request (call : Request)

/-- A call and the time that it records. -/
structure SavingsCall where
  recording : Recording
  time : ℤ

def record (state : SavingsState) (call : SavingsCall) : SavingsState :=
  match call.recording with
  | .compressionSavings savings =>
      (recordCompressionSavings tables litellm config state savings call.time).2
  | .request request => (recordRequest tables litellm config state request call.time).2

def runCalls (state : SavingsState) (calls : List SavingsCall) : SavingsState :=
  calls.foldl (record tables litellm config) state

/-- Every step of the run from a state has a property. -/
def EveryStep (holds : SavingsState → SavingsCall → Prop) :
    SavingsState → List SavingsCall → Prop
  | _, [] => True
  | state, call :: calls =>
      holds state call ∧ EveryStep holds (record tables litellm config state call) calls

instance decidableEveryStep {holds : SavingsState → SavingsCall → Prop}
    [∀ state call, Decidable (holds state call)] :
    ∀ state calls, Decidable (EveryStep tables litellm config holds state calls)
  | _, [] => .isTrue trivial
  | _, _ :: calls => @instDecidableAnd _ _ _ (decidableEveryStep _ calls)

theorem runCalls_concat (state : SavingsState) (calls : List SavingsCall) (call : SavingsCall) :
    runCalls tables litellm config state (calls ++ [call]) =
      record tables litellm config (runCalls tables litellm config state calls) call := by
  rw [runCalls, runCalls, List.foldl_append, List.foldl_cons, List.foldl_nil]

variable {state : SavingsState} {call : SavingsCall}

theorem everyStep_concat {holds : SavingsState → SavingsCall → Prop} {calls : List SavingsCall} :
    EveryStep tables litellm config holds state (calls ++ [call]) ↔
      EveryStep tables litellm config holds state calls ∧
        holds (runCalls tables litellm config state calls) call := by
  induction calls generalizing state with
  | nil => exact and_comm
  | cons first calls ih =>
      rw [List.cons_append, EveryStep, EveryStep, ih, and_assoc]
      rfl

/-- The checkpoint that a call makes. -/
def checkpoint (state : SavingsState) (call : SavingsCall) : Option HistoryPoint :=
  match call.recording with
  | .compressionSavings savings =>
      if coerceInt savings.tokensSaved = 0 then none
      else some (compressionPoint tables (compressionLifetime litellm state.lifetime savings)
        savings call.time)
  | .request request =>
      if request.saves then
        some (requestPoint tables (nextLifetime litellm state.lifetime request) request call.time)
      else none

/-- The calls that make a checkpoint. -/
theorem checkpoint_cases {point : HistoryPoint}
    (hpoint : checkpoint tables litellm state call = some point) :
    (∃ savings, call.recording = .compressionSavings savings ∧ coerceInt savings.tokensSaved ≠ 0 ∧
        point = compressionPoint tables (compressionLifetime litellm state.lifetime savings)
          savings call.time) ∨
      ∃ request, call.recording = .request request ∧ request.saves = true ∧
        point = requestPoint tables (nextLifetime litellm state.lifetime request) request
          call.time := by
  obtain ⟨recording, time⟩ := call
  cases recording with
  | compressionSavings savings =>
      simp only [checkpoint] at hpoint
      split_ifs at hpoint with hnone
      exact .inl ⟨savings, rfl, hnone, (Option.some.inj hpoint).symm⟩
  | request request =>
      simp only [checkpoint] at hpoint
      split_ifs at hpoint with hsaves
      exact .inr ⟨request, rfl, hsaves, (Option.some.inj hpoint).symm⟩

/-- The calls that make none. -/
theorem checkpoint_eq_none_cases (hnone : checkpoint tables litellm state call = none) :
    (∃ savings, call.recording = .compressionSavings savings ∧
        coerceInt savings.tokensSaved = 0) ∨
      ∃ request, call.recording = .request request ∧ request.saves ≠ true := by
  obtain ⟨recording, time⟩ := call
  cases recording with
  | compressionSavings savings =>
      simp only [checkpoint] at hnone
      split_ifs at hnone with hzero
      exact .inl ⟨savings, rfl, hzero⟩
  | request request =>
      simp only [checkpoint] at hnone
      split_ifs at hnone with hsaves
      exact .inr ⟨request, rfl, hsaves⟩

theorem history_record (state : SavingsState) (call : SavingsCall) :
    (record tables litellm config state call).history =
      match checkpoint tables litellm state call with
      | none => state.history
      | some point => trimHistory config (state.history ++ [point]) call.time := by
  obtain ⟨recording, time⟩ := call
  cases recording with
  | compressionSavings savings =>
      simp only [record, checkpoint, recordCompressionSavings]
      split_ifs
      · rfl
      · rfl
  | request request =>
      simp only [record, checkpoint, recordRequest]
      split_ifs
      · rfl
      · rfl

/-- The lifetime counters after a call. -/
def lifetimeAfter (lifetime : Lifetime) : Recording → Lifetime
  | .compressionSavings savings =>
      if coerceInt savings.tokensSaved = 0 then lifetime
      else compressionLifetime litellm lifetime savings
  | .request request => nextLifetime litellm lifetime request

theorem lifetime_record (state : SavingsState) (call : SavingsCall) :
    (record tables litellm config state call).lifetime =
      lifetimeAfter litellm state.lifetime call.recording := by
  obtain ⟨recording, time⟩ := call
  cases recording with
  | compressionSavings savings =>
      simp only [record, lifetimeAfter, recordCompressionSavings]
      split_ifs
      · rfl
      · rfl
  | request request => rfl

/-- A checkpoint shows the compression and input counters after its call. -/
theorem counters_checkpoint {point : HistoryPoint}
    (hpoint : checkpoint tables litellm state call = some point) :
    point.compression = (lifetimeAfter litellm state.lifetime call.recording).compression ∧
      point.input = (lifetimeAfter litellm state.lifetime call.recording).input := by
  rcases checkpoint_cases tables litellm hpoint with
    ⟨savings, hcall, hsaved, rfl⟩ | ⟨request, hcall, -, rfl⟩
  · rw [hcall, lifetimeAfter, if_neg hsaved]
    exact ⟨rfl, rfl⟩
  · rw [hcall]
    exact ⟨rfl, rfl⟩

/-- The compression and input counters do not fall. -/
theorem le_lifetimeAfter (lifetime : Lifetime) (recording : Recording) :
    lifetime.compression ≤ (lifetimeAfter litellm lifetime recording).compression ∧
      lifetime.input ≤ (lifetimeAfter litellm lifetime recording).input := by
  cases recording with
  | compressionSavings savings =>
      rw [lifetimeAfter]
      split_ifs
      · exact ⟨le_rfl, le_rfl⟩
      · exact ⟨Amount.le_plus _ _ _, le_max_left _ _, Usd.le_round (le_max_left _ _)⟩
  | request request =>
      exact ⟨Amount.le_plus _ _ _, (Nat.le_add_right _ _).trans (le_max_left _ _),
        Usd.le_round (le_self_add.trans (le_max_left _ _))⟩

end

end Legroom.SavingsTracker
