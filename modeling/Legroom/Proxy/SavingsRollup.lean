import Legroom.Proxy.SavingsTracker

/-!
# Rollups of the history

The checkpoints are cumulative.  A rollup takes their differences, puts them into buckets of
time, and gives each difference to the provider and the model of its checkpoint.
-/

namespace Legroom.SavingsTracker

open Python

inductive Bucket where
  | hour
  | day
  | week
  | month
deriving DecidableEq

/-! ## Buckets -/

/-- Days since the first of January 1970. -/
def dayNumber (time : ℤ) : ℤ := time / (86400 * second)

/-- `weekday`: zero on Mondays. -/
def weekday (day : ℤ) : ℤ := (day + 3) % 7

/-- The day of the month.  Months are counted from March, so that a leap day is the last
day of a year. -/
def dayOfMonth (day : ℤ) : ℤ :=
  let dayOfEra := (day + 719468) % 146097
  let yearOfEra :=
    (dayOfEra - dayOfEra / 1460 + dayOfEra / 36524 - dayOfEra / 146096) / 365
  let dayOfYear := dayOfEra - (365 * yearOfEra + yearOfEra / 4 - yearOfEra / 100)
  let month := (5 * dayOfYear + 2) / 153
  dayOfYear - (153 * month + 2) / 5 + 1

example : [0, 30, 31, 58, 59, 11016, 11017, -1].map dayOfMonth = [1, 31, 1, 28, 1, 29, 1, 31] := by
  decide

def bucketStart (bucket : Bucket) (time : ℤ) : ℤ :=
  let day := dayNumber time
  match bucket with
  | .hour => time - time % (3600 * second)
  | .day => day * 86400 * second
  | .week => (day - weekday day) * 86400 * second
  | .month => (day - (dayOfMonth day - 1)) * 86400 * second

/-! ## Differences -/

/-- What a provider or a model is given. -/
@[ext]
structure Share where
  compression : Amount
  input : Amount
deriving DecidableEq

/-- All series of a rollup. -/
@[ext]
structure Totals extends Share where
  output : Amount
deriving DecidableEq

instance : Zero Share := ⟨⟨0, 0⟩⟩
instance : Add Share :=
  ⟨fun left right => ⟨left.compression + right.compression, left.input + right.input⟩⟩
instance : Sub Share :=
  ⟨fun left right => ⟨left.compression - right.compression, left.input - right.input⟩⟩

instance : AddCommMonoid Share where
  add_assoc _ _ _ := Share.ext (add_assoc _ _ _) (add_assoc _ _ _)
  zero_add _ := Share.ext (zero_add _) (zero_add _)
  add_zero _ := Share.ext (add_zero _) (add_zero _)
  add_comm _ _ := Share.ext (add_comm _ _) (add_comm _ _)
  nsmul := nsmulRec

instance : Zero Totals := ⟨⟨0, 0⟩⟩
instance : Add Totals :=
  ⟨fun left right => ⟨left.toShare + right.toShare, left.output + right.output⟩⟩
instance : Sub Totals :=
  ⟨fun left right => ⟨left.toShare - right.toShare, left.output - right.output⟩⟩

/-- The series one by one. -/
theorem Totals.ext' {left right : Totals} (hshare : left.toShare = right.toShare)
    (houtput : left.output = right.output) : left = right :=
  Totals.ext (congrArg Share.compression hshare) (congrArg Share.input hshare) houtput

instance : AddCommMonoid Totals where
  add_assoc _ _ _ := Totals.ext' (add_assoc _ _ _) (add_assoc _ _ _)
  zero_add _ := Totals.ext' (zero_add _) (zero_add _)
  add_zero _ := Totals.ext' (add_zero _) (add_zero _)
  add_comm _ _ := Totals.ext' (add_comm _ _) (add_comm _ _)
  nsmul := nsmulRec

/-- What a total has more than the last one, if it has, is added to an amount. -/
def Amount.plusRise (amount previous total : Amount) : Amount :=
  amount.plus (total.tokens - previous.tokens) (total.usd.value - previous.usd.value)

def Share.plusRise (share previous total : Share) : Share where
  compression := share.compression.plusRise previous.compression total.compression
  input := share.input.plusRise previous.input total.input

def Totals.plusRise (totals previous total : Totals) : Totals where
  toShare := totals.toShare.plusRise previous.toShare total.toShare
  output := totals.output.plusRise previous.output total.output

/-- A total is above the last one. -/
def Amount.rises (previous total : Amount) : Bool :=
  0 < total.tokens - previous.tokens || 0 < total.usd.value - previous.usd.value

def Share.rises (previous total : Share) : Bool :=
  previous.compression.rises total.compression || previous.input.rises total.input

/-! ## The rollup -/

structure RollupEntry where
  timestamp : Second
  delta : Totals
  total : Share
  byProvider : Dict Text Share
  byModel : Dict Text Share

def RollupEntry.empty (timestamp : Second) (total : Share) : RollupEntry :=
  ⟨timestamp, 0, total, .empty, .empty⟩

/-- The counters of a checkpoint.  One that is missing is read as zero. -/
def HistoryPoint.totals (point : HistoryPoint) : Totals :=
  ⟨⟨point.compression, point.input⟩, outputSaved point.output⟩

/-- The difference goes to its owner. -/
def giveTo (shares : Dict Text Share) (owner : Text) (previous total : Share) :
    Dict Text Share :=
  if previous.rises total then
    shares.set owner (((shares.get? owner).getD 0).plusRise previous total)
  else shares

section

variable (tables : CharTables) (bucket : Bucket)

def bucketKey (point : HistoryPoint) : Second :=
  toUtcIso (bucketStart bucket (parseTimestamp point.timestamp))

def RollupEntry.add (entry : RollupEntry) (previous : Totals) (point : HistoryPoint) :
    RollupEntry where
  timestamp := entry.timestamp
  delta := entry.delta.plusRise previous point.totals
  total := point.totals.toShare
  byProvider := giveTo entry.byProvider (normalizeProvider tables (some point.provider))
    previous.toShare point.totals.toShare
  byModel := giveTo entry.byModel (normalizeModel tables (some point.model))
    previous.toShare point.totals.toShare

/-- The buckets so far, and the counters of the last checkpoint. -/
structure RollupState where
  aggregated : Dict Second RollupEntry
  previous : Totals

def RollupState.add (state : RollupState) (point : HistoryPoint) : RollupState :=
  let key := bucketKey bucket point
  let entry := (state.aggregated.get? key).getD (.empty key point.totals.toShare)
  ⟨state.aggregated.set key (entry.add tables state.previous point), point.totals⟩

def rollupState (history : List HistoryPoint) : RollupState :=
  history.foldl (RollupState.add tables bucket) ⟨.empty, 0⟩

def buildRollup (history : List HistoryPoint) : List RollupEntry :=
  (rollupState tables bucket history).aggregated.entries.map Prod.snd

end

/-! ## Arithmetic of totals -/

theorem Amount.plusRise_eq (amount previous total : Amount) :
    amount.plusRise previous total = amount + (total - previous) := by
  refine Amount.ext rfl ?_
  show Usd.round (amount.usd.value + (total.usd.value - previous.usd.value)) = _
  rw [← Usd.value_sub, Usd.round_add]
  rfl

theorem Share.plusRise_eq (share previous total : Share) :
    share.plusRise previous total = share + (total - previous) :=
  Share.ext (Amount.plusRise_eq _ _ _) (Amount.plusRise_eq _ _ _)

theorem Totals.plusRise_eq (totals previous total : Totals) :
    totals.plusRise previous total = totals + (total - previous) :=
  Totals.ext' (Share.plusRise_eq _ _ _) (Amount.plusRise_eq _ _ _)

theorem Amount.sub_eq_zero {previous total : Amount} (hrises : previous.rises total = false) :
    total - previous = 0 := by
  rw [Amount.rises, Bool.or_eq_false_iff, decide_eq_false_iff_not, decide_eq_false_iff_not,
    ← Usd.value_sub, not_lt, not_lt, Nat.le_zero, nonpos_iff_eq_zero] at hrises
  refine Amount.ext hrises.1 (Usd.ext ?_)
  have hzero := hrises.2
  rw [Usd.value, div_eq_zero_iff, Nat.cast_eq_zero] at hzero
  exact hzero.resolve_right (by norm_num)

theorem Share.sub_eq_zero {previous total : Share} (hrises : previous.rises total = false) :
    total - previous = 0 := by
  rw [Share.rises, Bool.or_eq_false_iff] at hrises
  exact Share.ext (Amount.sub_eq_zero hrises.1) (Amount.sub_eq_zero hrises.2)

/-- A total that is not smaller is the last one and the difference. -/
theorem Amount.add_sub {previous total : Amount} (hle : previous ≤ total) :
    previous + (total - previous) = total :=
  Amount.ext (Nat.add_sub_cancel' hle.1) (Usd.ext (Nat.add_sub_cancel' hle.2))

theorem Amount.zero_sub (amount : Amount) : 0 - amount = 0 :=
  Amount.ext (Nat.zero_sub _) (Usd.ext (Nat.zero_sub _))

theorem Share.sub_self (share : Share) : share - share = 0 :=
  Share.ext (Amount.ext (Nat.sub_self _) (Usd.ext (Nat.sub_self _)))
    (Amount.ext (Nat.sub_self _) (Usd.ext (Nat.sub_self _)))

/-! ## One checkpoint -/

/-- The two ways in which a bucket is divided. -/
inductive Breakdown where
  | provider
  | model

def Breakdown.part : Breakdown → RollupEntry → Dict Text Share
  | .provider, entry => entry.byProvider
  | .model, entry => entry.byModel

section

variable (tables : CharTables) (bucket : Bucket) (breakdown : Breakdown)

/-- The owner that the rollup reads from a checkpoint. -/
def Breakdown.pointOwner : Breakdown → HistoryPoint → Text
  | .provider, point => normalizeProvider tables (some point.provider)
  | .model, point => normalizeModel tables (some point.model)

theorem part_add (entry : RollupEntry) (previous : Totals) (point : HistoryPoint) :
    breakdown.part (entry.add tables previous point) =
      giveTo (breakdown.part entry) (breakdown.pointOwner tables point) previous.toShare
        point.totals.toShare := by
  cases breakdown with
  | provider => rfl
  | model => rfl

theorem part_empty (timestamp : Second) (total : Share) :
    breakdown.part (.empty timestamp total) = .empty := by
  cases breakdown with
  | provider => rfl
  | model => rfl

/-- Only the owner is given the difference. -/
theorem amountAt_giveTo (shares : Dict Text Share) (owner label : Text)
    (previous total : Share) :
    (giveTo shares owner previous total).amountAt id label =
      shares.amountAt id label + if label = owner then total - previous else 0 := by
  rw [giveTo]
  cases hrises : previous.rises total with
  | true =>
      rw [if_pos rfl, Dict.amountAt_set]
      split_ifs with howner
      · rw [howner, Dict.amountAt_eq id 0 rfl]
        exact Share.plusRise_eq _ _ _
      · exact (add_zero _).symm
  | false => rw [if_neg Bool.false_ne_true, Share.sub_eq_zero hrises, ite_self, add_zero]

theorem sumBy_giveTo (shares : Dict Text Share) (owner : Text) (previous total : Share) :
    (giveTo shares owner previous total).sumBy id = shares.sumBy id + (total - previous) := by
  rw [giveTo]
  cases hrises : previous.rises total with
  | true =>
      rw [if_pos rfl]
      exact Dict.sumBy_set_add id 0 rfl shares owner (Share.plusRise_eq _ _ _)
  | false => rw [if_neg Bool.false_ne_true, Share.sub_eq_zero hrises, add_zero]

theorem sumBy_delta_add (state : RollupState) (point : HistoryPoint) :
    (state.add tables bucket point).aggregated.sumBy RollupEntry.delta =
      state.aggregated.sumBy RollupEntry.delta + (point.totals - state.previous) :=
  Dict.sumBy_set_add RollupEntry.delta (.empty (bucketKey bucket point) point.totals.toShare) rfl
    _ _ (Totals.plusRise_eq _ _ _)

/-- What an owner has in all buckets. -/
def ownedShare (state : RollupState) (label : Text) : Share :=
  state.aggregated.sumBy fun entry => (breakdown.part entry).amountAt id label

theorem ownedShare_add (state : RollupState) (point : HistoryPoint) (label : Text) :
    ownedShare breakdown (state.add tables bucket point) label =
      ownedShare breakdown state label +
        if label = breakdown.pointOwner tables point then
          point.totals.toShare - state.previous.toShare else 0 := by
  refine Dict.sumBy_set_add (fun entry => (breakdown.part entry).amountAt id label)
    (.empty (bucketKey bucket point) point.totals.toShare) ?_ _ _ ?_
  · show (breakdown.part (.empty _ _)).amountAt id label = 0
    rw [part_empty]
    rfl
  · show (breakdown.part (RollupEntry.add _ _ _ _)).amountAt id label = _
    rw [part_add, amountAt_giveTo]

/-- Every bucket is divided without a rest. -/
def IsDivided (state : RollupState) : Prop :=
  ∀ bucket ∈ state.aggregated.entries, (breakdown.part bucket.2).sumBy id = bucket.2.delta.toShare

theorem IsDivided.add {state : RollupState} (hdivided : IsDivided breakdown state)
    (point : HistoryPoint) : IsDivided breakdown (state.add tables bucket point) := by
  rintro ⟨key, entry⟩ hentry
  have hcase := Dict.mem_set_iff.mp hentry
  split_ifs at hcase
  · have hbefore : (breakdown.part ((state.aggregated.get? (bucketKey bucket point)).getD
        (.empty (bucketKey bucket point) point.totals.toShare))).sumBy id =
          ((state.aggregated.get? (bucketKey bucket point)).getD
            (.empty (bucketKey bucket point) point.totals.toShare)).delta.toShare := by
      cases hfound : state.aggregated.get? (bucketKey bucket point) with
      | none =>
          rw [Option.getD_none, part_empty]
          rfl
      | some entry => exact hdivided _ (Dict.get?_eq_some_iff.mp hfound)
    rw [hcase, part_add, sumBy_giveTo, hbefore]
    exact (Share.plusRise_eq _ _ _).symm
  · exact hdivided _ hcase

theorem rollupState_concat (history : List HistoryPoint) (point : HistoryPoint) :
    rollupState tables bucket (history ++ [point]) =
      (rollupState tables bucket history).add tables bucket point := by
  rw [rollupState, rollupState, List.foldl_append, List.foldl_cons, List.foldl_nil]

end

/-!
## Rollups of runs

The rollup of the history of a run against the lifetime counters, and against what the calls
of each provider and model added to these.
-/

def Lifetime.totals (lifetime : Lifetime) : Totals :=
  ⟨⟨lifetime.compression, lifetime.input⟩, outputSaved lifetime.output⟩

section

variable (tables : CharTables) (litellm : Option Litellm) (config : Config) (bucket : Bucket)

/-- The provider or the model of a call. -/
def Breakdown.callOwner : Breakdown → Recording → Text
  | .provider, .compressionSavings call => normalizeProvider tables call.provider
  | .provider, .request call => normalizeProvider tables call.provider
  | .model, .compressionSavings call => normalizeModel tables (some call.model)
  | .model, .request call => normalizeModel tables (some call.model)

/-- What the calls of an owner added to the lifetime counters. -/
def contributed (breakdown : Breakdown) (owner : Text) : SavingsState → List SavingsCall → Share
  | _, [] => 0
  | state, call :: calls =>
      let next := record tables litellm config state call
      (if owner = breakdown.callOwner tables call.recording then
        next.lifetime.totals.toShare - state.lifetime.totals.toShare else 0) +
        contributed breakdown owner next calls

/-! ## What the rollup needs of a call -/

/-- The history is not trimmed. -/
def IsUntrimmed (state : SavingsState) (call : SavingsCall) : Prop :=
  ∀ point ∈ checkpoint tables litellm state call,
    trimHistory config (state.history ++ [point]) call.time = state.history ++ [point]

instance (state : SavingsState) (call : SavingsCall) :
    Decidable (IsUntrimmed tables litellm config state call) :=
  inferInstanceAs (Decidable (∀ point ∈ checkpoint tables litellm state call, _))

/-- The request leaves the input totals as they are. -/
def AddsNoInput (input : Amount) (call : Request) : Prop :=
  coerceInt call.inputTokens = 0 ∧ coerceTotal call.totalInputTokens input.tokens ≤ input.tokens ∧
    let cost := input.usd.value + call.inputCostUsd litellm
    Usd.round (max cost (coerceCost call.totalInputCostUsd cost)) = input.usd

instance (input : Amount) (call : Request) : Decidable (AddsNoInput litellm input call) :=
  inferInstanceAs (Decidable (_ ∧ _ ∧ _))

/-- The output counters of the last checkpoint. -/
def shownOutput (history : List HistoryPoint) : Amount :=
  outputSaved (history.getLast?.bind HistoryPoint.output)

/-- A request makes no checkpoint only when it moves no counter, and one that makes a
checkpoint finds its output counters in the last one. -/
def IsAccounted (state : SavingsState) (call : SavingsCall) : Prop :=
  match call.recording with
  | .compressionSavings _ => True
  | .request request =>
      if request.saves then shownOutput state.history = outputSaved state.lifetime.output
      else AddsNoInput litellm state.lifetime.input request

instance (state : SavingsState) :
    ∀ call : SavingsCall, Decidable (IsAccounted litellm state call)
  | ⟨.compressionSavings _, _⟩ => .isTrue trivial
  | ⟨.request request, _⟩ =>
      inferInstanceAs (Decidable (if request.saves then
        shownOutput state.history = outputSaved state.lifetime.output
        else AddsNoInput litellm state.lifetime.input request))

/-! ## One call -/

variable {tables litellm config}
variable {state : SavingsState} {call : SavingsCall} {point : HistoryPoint}

theorem pointOwner_checkpoint (htables : IsPlain tables)
    (hpoint : checkpoint tables litellm state call = some point) (breakdown : Breakdown) :
    breakdown.pointOwner tables point = breakdown.callOwner tables call.recording := by
  rcases checkpoint_cases tables litellm hpoint with
    ⟨savings, hcall, -, rfl⟩ | ⟨request, hcall, -, rfl⟩
  · rw [hcall]
    cases breakdown with
    | provider => exact normalizeLabel_normalizeLabel tables htables savings.provider
    | model => exact normalizeLabel_normalizeLabel tables htables (some savings.model)
  · rw [hcall]
    cases breakdown with
    | provider => exact normalizeLabel_normalizeLabel tables htables request.provider
    | model => exact normalizeLabel_normalizeLabel tables htables (some request.model)

theorem share_checkpoint (hpoint : checkpoint tables litellm state call = some point) :
    point.totals.toShare = (lifetimeAfter litellm state.lifetime call.recording).totals.toShare :=
  Share.ext (counters_checkpoint tables litellm hpoint).1 (counters_checkpoint tables litellm hpoint).2

theorem share_lifetimeAfter (litellm : Option Litellm) (lifetime : Lifetime)
    (recording : Recording) :
    lifetime.totals.toShare +
        ((lifetimeAfter litellm lifetime recording).totals.toShare - lifetime.totals.toShare) =
      (lifetimeAfter litellm lifetime recording).totals.toShare :=
  Share.ext (Amount.add_sub (le_lifetimeAfter litellm lifetime recording).1)
    (Amount.add_sub (le_lifetimeAfter litellm lifetime recording).2)

/-- Without a checkpoint the counters stay as they are. -/
theorem totals_of_no_checkpoint (haccounted : IsAccounted litellm state call)
    (hnone : checkpoint tables litellm state call = none) :
    (lifetimeAfter litellm state.lifetime call.recording).totals = state.lifetime.totals := by
  rcases checkpoint_eq_none_cases tables litellm hnone with
    ⟨savings, hcall, hzero⟩ | ⟨request, hcall, hsaves⟩
  · rw [hcall, lifetimeAfter, if_pos hzero]
  · simp only [IsAccounted, hcall, if_neg hsaves] at haccounted
    obtain ⟨htokens, htotal, hcost⟩ := haccounted
    obtain ⟨hsaved, -, houtput⟩ := saves_eq_false_iff.mp (Bool.eq_false_iff.mpr hsaves)
    rw [hcall]
    refine Totals.ext ?_ ?_ ?_
    · show request.compressionDelta litellm state.lifetime.compression = _
      rw [Request.compressionDelta, hsaved, estimateCompressionSavingsUsd, priced_zero,
        Amount.plus_zero]
      rfl
    · refine Amount.ext ?_ hcost
      show max (_ + coerceInt request.inputTokens) (coerceTotal _ (_ + _)) =
        state.lifetime.input.tokens
      rw [htokens, add_zero]
      exact max_eq_left htotal
    · show request.outputDelta litellm (outputSaved state.lifetime.output) = _
      rw [Request.outputDelta, houtput, estimateOutputSavingsUsd, priced_zero, Amount.plus_zero]
      rfl

/-- The output that a checkpoint shows more is what the call added. -/
theorem output_checkpoint (haccounted : IsAccounted litellm state call)
    (hpoint : checkpoint tables litellm state call = some point) :
    outputSaved state.lifetime.output +
        (outputSaved point.output - shownOutput state.history) =
      outputSaved (lifetimeAfter litellm state.lifetime call.recording).output := by
  rcases checkpoint_cases tables litellm hpoint with
    ⟨savings, hcall, hsaved, rfl⟩ | ⟨request, hcall, hsaves, rfl⟩
  · rw [hcall, lifetimeAfter, if_neg hsaved]
    show outputSaved state.lifetime.output + (0 - _) = outputSaved state.lifetime.output
    rw [Amount.zero_sub, add_zero]
  · simp only [IsAccounted, hcall, if_pos hsaves] at haccounted
    rw [hcall, haccounted]
    exact Amount.add_sub (Amount.le_plus _ _ _)

/-! ## Runs -/

variable (tables litellm config)

theorem contributed_concat (breakdown : Breakdown) (owner : Text) (state : SavingsState)
    (calls : List SavingsCall) (call : SavingsCall) :
    contributed tables litellm config breakdown owner state (calls ++ [call]) =
      contributed tables litellm config breakdown owner state calls +
        if owner = breakdown.callOwner tables call.recording then
          (record tables litellm config (runCalls tables litellm config state calls)
              call).lifetime.totals.toShare -
            (runCalls tables litellm config state calls).lifetime.totals.toShare
        else 0 := by
  induction calls generalizing state with
  | nil => exact add_comm _ _
  | cons first calls ih =>
      rw [List.cons_append, contributed, contributed, ih, add_assoc]
      rfl

theorem previous_rollupState (history : List HistoryPoint) :
    (rollupState tables bucket history).previous =
      ((history.getLast?).map HistoryPoint.totals).getD 0 := by
  induction history using List.reverseRecOn with
  | nil => rfl
  | append_singleton history point =>
      rw [rollupState_concat, List.getLast?_concat]
      rfl

theorem output_previous (history : List HistoryPoint) :
    (rollupState tables bucket history).previous.output = shownOutput history := by
  rw [previous_rollupState, shownOutput]
  cases history.getLast? with
  | none => rfl
  | some point => rfl

/-- The rollup accounts for the lifetime counters after a run. -/
structure Accounts (calls : List SavingsCall) : Prop where
  previous : (rollupState tables bucket
      (runCalls tables litellm config defaultState calls).history).previous.toShare =
    (runCalls tables litellm config defaultState calls).lifetime.totals.toShare
  sum : (rollupState tables bucket
      (runCalls tables litellm config defaultState calls).history).aggregated.sumBy
        RollupEntry.delta =
    (runCalls tables litellm config defaultState calls).lifetime.totals
  divided : ∀ breakdown, IsDivided breakdown
    (rollupState tables bucket (runCalls tables litellm config defaultState calls).history)
  owned : ∀ breakdown owner, ownedShare breakdown (rollupState tables bucket
      (runCalls tables litellm config defaultState calls).history) owner =
    contributed tables litellm config breakdown owner defaultState calls

variable {tables litellm config bucket}

/-- A call that is accounted for keeps the accounts. -/
theorem Accounts.concat (htables : IsPlain tables) {calls : List SavingsCall}
    (haccounts : Accounts tables litellm config bucket calls)
    (huntrimmed : IsUntrimmed tables litellm config
      (runCalls tables litellm config defaultState calls) call)
    (haccounted : IsAccounted litellm (runCalls tables litellm config defaultState calls) call) :
    Accounts tables litellm config bucket (calls ++ [call]) := by
  obtain ⟨hprevious, hsum, hdivided, howned⟩ := haccounts
  have hrun := runCalls_concat tables litellm config defaultState calls call
  generalize hstate : runCalls tables litellm config defaultState calls = state at *
  have hhistory := history_record tables litellm config state call
  have hlifetime := lifetime_record tables litellm config state call
  cases hpoint : checkpoint tables litellm state call with
  | none =>
      have htotals := totals_of_no_checkpoint haccounted hpoint
      rw [hpoint] at hhistory
      rw [← hlifetime] at htotals
      constructor
      · rw [hrun, hhistory, htotals, hprevious]
      · rw [hrun, hhistory, htotals, hsum]
      · rw [hrun, hhistory]
        exact hdivided
      · intro breakdown owner
        rw [hrun, hhistory, contributed_concat, howned, hstate, htotals, Share.sub_self, ite_self,
          add_zero]
  | some point =>
      have hshare := share_checkpoint hpoint
      have houtput := output_checkpoint haccounted hpoint
      rw [hpoint] at hhistory
      rw [← hlifetime] at hshare houtput
      have happended : (record tables litellm config state call).history =
          state.history ++ [point] := hhistory.trans (huntrimmed point hpoint)
      have hrise := share_lifetimeAfter litellm state.lifetime call.recording
      rw [← hlifetime] at hrise
      constructor
      · rw [hrun, happended, rollupState_concat]
        exact hshare
      · rw [hrun, happended, rollupState_concat, sumBy_delta_add, hsum]
        refine Totals.ext' ?_ ?_
        · show state.lifetime.totals.toShare + (point.totals.toShare - _) = _
          rw [hshare, hprevious, hrise]
        · show outputSaved state.lifetime.output + (outputSaved point.output - _) = _
          rw [output_previous, houtput]
          rfl
      · intro breakdown
        rw [hrun, happended, rollupState_concat]
        exact (hdivided breakdown).add tables bucket breakdown point
      · intro breakdown owner
        rw [hrun, happended, rollupState_concat, ownedShare_add, contributed_concat, howned, hstate,
          pointOwner_checkpoint htables hpoint, hshare, hprevious]

theorem accounts_of_everyStep (htables : IsPlain tables) {calls : List SavingsCall}
    (huntrimmed : EveryStep tables litellm config (IsUntrimmed tables litellm config)
      defaultState calls)
    (haccounted : EveryStep tables litellm config (IsAccounted litellm) defaultState calls) :
    Accounts tables litellm config bucket calls := by
  induction calls using List.reverseRecOn with
  | nil => exact ⟨rfl, rfl, fun _ _ hentry => absurd hentry List.not_mem_nil, fun _ _ => rfl⟩
  | append_singleton calls call ih =>
      rw [everyStep_concat] at huntrimmed haccounted
      exact (ih huntrimmed.1 haccounted.1).concat htables huntrimmed.2 haccounted.2

variable (tables litellm config bucket)

/-- The rollup after a run gives back the lifetime counters, bucket by bucket and owner by
owner. -/
structure Conserved (calls : List SavingsCall) : Prop where
  sum_delta :
    ((buildRollup tables bucket (runCalls tables litellm config defaultState calls).history).map
      RollupEntry.delta).sum = (runCalls tables litellm config defaultState calls).lifetime.totals
  divided : ∀ entry ∈
      buildRollup tables bucket (runCalls tables litellm config defaultState calls).history,
    ∀ breakdown : Breakdown, (breakdown.part entry).sumBy id = entry.delta.toShare
  owned : ∀ (breakdown : Breakdown) (owner : Text),
    ((buildRollup tables bucket (runCalls tables litellm config defaultState calls).history).map
      fun entry => (breakdown.part entry).amountAt id owner).sum =
        contributed tables litellm config breakdown owner defaultState calls

/-- A run conserves the counters when its calls are accounted for. -/
theorem rollup_conserves (htables : IsPlain tables) (calls : List SavingsCall)
    (huntrimmed : EveryStep tables litellm config (IsUntrimmed tables litellm config)
      defaultState calls)
    (haccounted : EveryStep tables litellm config (IsAccounted litellm) defaultState calls) :
    Conserved tables litellm config bucket calls := by
  have haccounts : Accounts tables litellm config bucket calls :=
    accounts_of_everyStep htables huntrimmed haccounted
  refine ⟨?_, ?_, ?_⟩
  · rw [buildRollup, List.map_map]
    exact haccounts.sum
  · intro entry hentry breakdown
    obtain ⟨bucket, hbucket, rfl⟩ := List.mem_map.mp hentry
    exact haccounts.divided breakdown bucket hbucket
  · intro breakdown owner
    rw [buildRollup, List.map_map]
    exact haccounts.owned breakdown owner

end

/-! ## Runs that are and are not conserved -/

def exampleConfig : Config := ⟨0, 0, 60⟩

def exampleRequest (provider : String) (input saved output : ℤ) : Request where
  model := text "gpt-4o"
  inputTokens := input
  tokensSaved := saved
  outputTokensSaved := output
  provider := some (text provider)
  project := none
  cacheReadTokens := 0
  cacheWriteTokens := 0
  uncachedInputTokens := 0
  totalInputTokens := none
  totalInputCostUsd := none

def exampleSavings : CompressionSavings := ⟨text "gpt-4o", 1, some (text "openai"), none, none⟩

/-- Savings of the compression, and requests that save input and output. -/
def accountedCalls : List SavingsCall :=
  [⟨.compressionSavings exampleSavings, 0⟩,
    ⟨.request (exampleRequest "openai" 100 20 10), 4000 * second⟩,
    ⟨.request (exampleRequest "anthropic" 50 5 0), 8000 * second⟩]

theorem accountedCalls_conserved :
    Conserved asciiTables none exampleConfig .hour accountedCalls :=
  rollup_conserves asciiTables none exampleConfig .hour (by decide +kernel) accountedCalls
    (by decide +kernel) (by decide +kernel)

/-- The checkpoint of the compression shows no output, so the next one shows all of it as new. -/
def recountedCalls : List SavingsCall :=
  [⟨.request (exampleRequest "openai" 100 20 10), 0⟩, ⟨.compressionSavings exampleSavings, 1⟩,
    ⟨.request (exampleRequest "openai" 100 20 5), 2⟩]

theorem output_recounted :
    (recountedCalls.map SavingsCall.time).Pairwise (· ≤ ·) ∧
      EveryStep asciiTables none exampleConfig (IsUntrimmed asciiTables none exampleConfig)
        defaultState recountedCalls ∧
      ¬Conserved asciiTables none exampleConfig .day recountedCalls := by
  refine ⟨by decide, by decide +kernel, fun hconserved => ?_⟩
  have hoverall := congrArg (fun totals => totals.output.tokens) hconserved.sum_delta
  have htwice : (((buildRollup asciiTables .day
      (runCalls asciiTables none exampleConfig defaultState recountedCalls).history).map
        RollupEntry.delta).sum.output.tokens,
      (runCalls asciiTables none exampleConfig defaultState
        recountedCalls).lifetime.totals.output.tokens) = (25, 15) := by
    decide +kernel
  exact absurd (hoverall.symm.trans (congrArg Prod.fst htwice))
    (fun hsame => absurd ((congrArg Prod.snd htwice).symm.trans hsame) (by decide))

end Legroom.SavingsTracker
