import Legroom.Lib.Python.Access
import Legroom.Lib.Python.Dict
import Mathlib.Algebra.Order.Ring.Rat
import Mathlib.Tactic.Linarith
import Mathlib.Tactic.Ring

/-!
# The net-cost gate

A mutation of a message is admitted if it saves more than the cached suffix behind it costs.  The
shallowest message that is mutated pays for the suffix, and deeper ones ride along.
-/

namespace Legroom.Transforms

open Python

namespace NetCost

/-! ## Suffixes -/

section

variable (countText : Text → ℕ) (str : Value → Text)

def emptyText : Value := .str []

def isTextBlock (block : Value) : Bool :=
  ((block.get (text "type")).getD .none).isText (text "text")

/-- Tokens of a part of a tool result. -/
def partTokens (part : Value) : ℕ :=
  if part.isDict && isTextBlock part then
    countText (str ((part.get (text "text")).getD emptyText))
  else countText (str part)

def blockTokens (block : Value) : ℕ :=
  if !block.isDict then countText (str block)
  else if isTextBlock block then countText (str ((block.get (text "text")).getD emptyText))
  else if ((block.get (text "type")).getD .none).isText (text "tool_result") then
    match (block.get (text "content")).getD emptyText with
    | .str shown => countText shown
    | .list parts => (parts.map (partTokens countText str)).sum
    | other => countText (str other)
  else countText (str block)

def netcostMessageTokens (message : Value) : ℕ :=
  match (message.get (text "content")).getD emptyText with
  | .str shown => countText shown
  | .list blocks => (blocks.map (blockTokens countText str)).sum
  | other => countText (str other)

/-- The tokens from every message on, and nothing behind the last one. -/
def netcostSuffixTokens : List Value → List ℕ
  | [] => [0]
  | message :: messages =>
      let behind := netcostSuffixTokens messages
      (behind.headD 0 + netcostMessageTokens countText str message) :: behind

end

/-! ## The gate -/

def cacheWriteMultiplier : ℚ := 5 / 4
def cacheReadMultiplier : ℚ := 1 / 10

def netMutationGain (deltaT suffixTokens : ℤ) (expectedReads pAlive : ℚ) : ℚ :=
  let dt := max 0 deltaT
  let suffix := max 0 suffixTokens
  let reads := max expectedReads 0
  let alive := min (max pAlive 0) 1
  dt * (cacheWriteMultiplier + cacheReadMultiplier * (reads - 1)) -
    alive * (cacheWriteMultiplier - cacheReadMultiplier) * ((suffix + dt : ℤ) : ℚ)

def gainBucket (gain : ℚ) : Text :=
  let band :=
    if |gain| < 100 then text "lt100"
    else if |gain| < 1000 then text "lt1k"
    else if |gain| < 10000 then text "lt10k"
    else text "gte10k"
  if gain = 0 then text "0" else if gain < 0 then text "neg_" ++ band else band

/-- What the environment and the caller say.  A malformed value counts as unset. -/
structure Settings where
  envReads : Option ℚ
  envAlive : Option ℚ
  pAliveOverride : Option ℚ

def Settings.reads (settings : Settings) : ℚ := settings.envReads.getD 10

def Settings.pAlive (settings : Settings) : ℚ :=
  match settings.pAliveOverride with
  | some alive => min (max alive 0) 1
  | none => settings.envAlive.getD 1

structure Candidate where
  slotIdx : ℕ
  originalTokens : ℕ
  compressedTokens : ℕ
deriving DecidableEq

def Candidate.deltaT (candidate : Candidate) : ℕ :=
  candidate.originalTokens - candidate.compressedTokens

structure GateState where
  /-- `batch_state["floor"]` -/
  floor : Option ℕ
  routeCounts : Dict Text ℕ
  transformsApplied : List Text

def GateState.init : GateState := ⟨none, .empty, []⟩

def GateState.bump (state : GateState) (key : Text) : GateState :=
  { state with routeCounts := state.routeCounts.set key ((state.routeCounts.get? key).getD 0 + 1) }

def GateState.mark (state : GateState) (transform : Text) : GateState :=
  { state with transformsApplied := state.transformsApplied ++ [transform] }

variable (settings : Settings) (suffixTokens : List ℕ)

/-- A shallower message is mutated already. -/
def batchReclaim (floor : Option ℕ) (candidate : Candidate) : Bool :=
  floor.any (· < candidate.slotIdx)

/-- The suffix behind a message, unless another one has paid for it. -/
def chargedSuffix (floor : Option ℕ) (candidate : Candidate) : ℕ :=
  if batchReclaim floor candidate then 0 else suffixTokens.getD (candidate.slotIdx + 1) 0

def candidateGain (floor : Option ℕ) (candidate : Candidate) : ℚ :=
  netMutationGain candidate.deltaT (chargedSuffix suffixTokens floor candidate) settings.reads
    settings.pAlive

def netCostAllows (state : GateState) (candidate : Candidate) : Bool × GateState :=
  let reclaim := batchReclaim state.floor candidate
  let gain := candidateGain settings suffixTokens state.floor candidate
  if 0 < gain then
    let counted := state.bump (text "netcost_allowed")
    let idle :=
      if settings.pAliveOverride.isSome ∧ settings.pAlive < 1 then
        (counted.bump (text "netcost_idle_admitted")).mark (text "router:netcost_idle_compaction")
      else counted
    if reclaim then
      (true, (idle.bump (text "netcost_batch_admitted")).mark (text "router:netcost_batch_admit"))
    else
      (true, { idle with
        floor := some (match state.floor with
          | none => candidate.slotIdx
          | some floor => min floor candidate.slotIdx) })
  else
    (false, (state.bump (text "netcost_skipped")).mark
      (text "netcost:skip:" ++ gainBucket gain))

/-- The decisions on candidates in the order in which they come. -/
def gateRun : GateState → List Candidate → List (Candidate × Bool)
  | _, [] => []
  | state, candidate :: candidates =>
      let decision := netCostAllows settings suffixTokens state candidate
      (candidate, decision.1) :: gateRun decision.2 candidates

def gateState (state : GateState) (candidates : List Candidate) : GateState :=
  candidates.foldl (fun state candidate => (netCostAllows settings suffixTokens state candidate).2)
    state

def admitted (state : GateState) (candidates : List Candidate) : List Candidate :=
  ((gateRun settings suffixTokens state candidates).filter (·.2)).map (·.1)

/-! ## The floor -/

variable {settings suffixTokens}

theorem netCostAllows_fst (state : GateState) (candidate : Candidate) :
    (netCostAllows settings suffixTokens state candidate).1 =
      decide (0 < candidateGain settings suffixTokens state.floor candidate) := by
  rw [netCostAllows]
  split_ifs with hgain hreclaim
  all_goals simp only [hgain, decide_true, decide_false]

/-- An admitted candidate lowers the floor to its slot, unless the floor is shallower. -/
theorem netCostAllows_floor (state : GateState) (candidate : Candidate) :
    (netCostAllows settings suffixTokens state candidate).2.floor =
      if 0 < candidateGain settings suffixTokens state.floor candidate then
        some (state.floor.elim candidate.slotIdx (min · candidate.slotIdx))
      else state.floor := by
  have hreclaim : batchReclaim state.floor candidate = true →
      state.floor = some (state.floor.elim candidate.slotIdx (min · candidate.slotIdx)) := by
    cases hfloor : state.floor with
    | none => exact fun hreclaim => absurd hreclaim Bool.false_ne_true
    | some floor =>
        intro hreclaim
        rw [Option.elim_some, min_eq_left (of_decide_eq_true hreclaim).le]
  rw [netCostAllows]
  by_cases hgain : 0 < candidateGain settings suffixTokens state.floor candidate
  · rw [if_pos hgain, if_pos hgain]
    by_cases hshallower : batchReclaim state.floor candidate = true
    · rw [← hreclaim hshallower, if_pos hshallower]
      split_ifs <;> rfl
    · rw [if_neg hshallower]
      cases state.floor <;> rfl
  · rw [if_neg hgain, if_neg hgain]
    rfl

/-! ## Batches that pay -/

/-- What the mutations of a batch gain together when the shallowest one pays for the suffix. -/
def jointGain (settings : Settings) (suffixTokens : List ℕ) (batch : List Candidate)
    (shallowest : ℕ) : ℚ :=
  (batch.map fun candidate => (candidate.deltaT : ℚ) *
      (cacheWriteMultiplier + cacheReadMultiplier * (settings.reads - 1))).sum -
    settings.pAlive * (cacheWriteMultiplier - cacheReadMultiplier) *
      ((suffixTokens.getD (shallowest + 1) 0 : ℚ) +
        (batch.map fun candidate => (candidate.deltaT : ℚ)).sum)

/-- The floor is the shallowest slot of the batch, and the batch pays for its suffix. -/
inductive Pays (settings : Settings) (suffixTokens : List ℕ) : Option ℕ → List Candidate → Prop
  | empty : Pays settings suffixTokens none []
  | paid {batch : List Candidate} {shallowest : Candidate} (hmem : shallowest ∈ batch)
      (hshallowest : ∀ other ∈ batch, shallowest.slotIdx ≤ other.slotIdx)
      (hgain : 0 < jointGain settings suffixTokens batch shallowest.slotIdx) :
      Pays settings suffixTokens (some shallowest.slotIdx) batch

variable (hreads : 0 ≤ settings.reads) (halive : settings.pAlive ∈ Set.Icc 0 1)

include hreads halive in
theorem candidateGain_eq (floor : Option ℕ) (candidate : Candidate) :
    candidateGain settings suffixTokens floor candidate =
      (candidate.deltaT : ℚ) *
          (cacheWriteMultiplier + cacheReadMultiplier * (settings.reads - 1)) -
        settings.pAlive * (cacheWriteMultiplier - cacheReadMultiplier) *
          ((chargedSuffix suffixTokens floor candidate : ℚ) + candidate.deltaT) := by
  simp only [candidateGain, netMutationGain, max_eq_left hreads, max_eq_left halive.1,
    min_eq_left halive.2, max_eq_right (Int.natCast_nonneg _), Int.cast_add, Int.cast_natCast]

variable (batch : List Candidate)

theorem jointGain_concat (candidate : Candidate) (shallowest : ℕ) :
    jointGain settings suffixTokens (batch ++ [candidate]) shallowest =
      jointGain settings suffixTokens batch shallowest + ((candidate.deltaT : ℚ) *
        (cacheWriteMultiplier + cacheReadMultiplier * (settings.reads - 1)) -
          settings.pAlive * (cacheWriteMultiplier - cacheReadMultiplier) * candidate.deltaT) := by
  simp only [jointGain, List.map_append, List.map_cons, List.map_nil, List.sum_append,
    List.sum_singleton]
  ring

theorem jointGain_eq (shallowest : ℕ) :
    jointGain settings suffixTokens batch shallowest = jointGain settings [] batch 0 -
      settings.pAlive * (cacheWriteMultiplier - cacheReadMultiplier) *
        (suffixTokens.getD (shallowest + 1) 0 : ℚ) := by
  simp only [jointGain, List.getD_nil, Nat.cast_zero]
  ring

include halive in
theorem penalty_nonneg (tokens : ℕ) : 0 ≤
    settings.pAlive * (cacheWriteMultiplier - cacheReadMultiplier) * (tokens : ℚ) :=
  mul_nonneg (mul_nonneg halive.1 (by decide +kernel)) (Nat.cast_nonneg _)

variable {batch : List Candidate} {candidate : Candidate}

include hreads halive in
/-- A candidate behind the floor adds its own gain, and one in front of it takes over the suffix,
which the batch did not need. -/
theorem Pays.concat {floor : Option ℕ} (hpays : Pays settings suffixTokens floor batch)
    (hgain : 0 < candidateGain settings suffixTokens floor candidate) :
    Pays settings suffixTokens (some (floor.elim candidate.slotIdx (min · candidate.slotIdx)))
      (batch ++ [candidate]) := by
  rw [candidateGain_eq hreads halive, chargedSuffix] at hgain
  cases hpays with
  | empty =>
      refine .paid List.mem_cons_self (fun other hother => ?_) ?_
      · rw [List.mem_singleton.mp hother]
      · rw [batchReclaim, Option.any_none, if_neg Bool.false_ne_true] at hgain
        simpa only [jointGain, List.nil_append, List.map_cons, List.map_nil,
          List.sum_singleton] using hgain
  | @paid _ shallowest hmem hshallowest hjoint =>
      rw [Option.elim_some]
      by_cases hdeeper : shallowest.slotIdx < candidate.slotIdx
      · rw [batchReclaim, Option.any_some, decide_eq_true hdeeper, if_pos rfl] at hgain
        rw [min_eq_left hdeeper.le]
        refine .paid (List.mem_append_left _ hmem) (fun other hother => ?_) ?_
        · rcases List.mem_append.mp hother with hother | hother
          · exact hshallowest other hother
          · rw [List.mem_singleton.mp hother]
            exact hdeeper.le
        · rw [jointGain_concat]
          simp only [Nat.cast_zero, zero_add] at hgain
          exact add_pos hjoint hgain
      · rw [batchReclaim, Option.any_some, decide_eq_false hdeeper, if_neg Bool.false_ne_true]
          at hgain
        rw [min_eq_right (Nat.le_of_not_lt hdeeper)]
        refine .paid (List.mem_append_right _ List.mem_cons_self) (fun other hother => ?_) ?_
        · rcases List.mem_append.mp hother with hother | hother
          · exact (Nat.le_of_not_lt hdeeper).trans (hshallowest other hother)
          · rw [List.mem_singleton.mp hother]
        · have hpenalty := penalty_nonneg halive (suffixTokens.getD (shallowest.slotIdx + 1) 0)
          rw [jointGain_eq] at hjoint
          rw [jointGain_concat, jointGain_eq]
          linarith

variable {state : GateState}

include hreads halive in
/-- One candidate. -/
theorem netCostAllows_pays (hpays : Pays settings suffixTokens state.floor batch)
    (candidate : Candidate) :
    Pays settings suffixTokens (netCostAllows settings suffixTokens state candidate).2.floor
      (batch ++ if (netCostAllows settings suffixTokens state candidate).1 then [candidate]
        else []) := by
  rw [netCostAllows_fst, netCostAllows_floor]
  by_cases hgain : 0 < candidateGain settings suffixTokens state.floor candidate
  · rw [decide_eq_true hgain, if_pos rfl, if_pos hgain]
    exact hpays.concat hreads halive hgain
  · rw [decide_eq_false hgain, if_neg Bool.false_ne_true, if_neg hgain, List.append_nil]
    exact hpays

theorem admitted_cons (state : GateState) (candidate : Candidate) (candidates : List Candidate) :
    admitted settings suffixTokens state (candidate :: candidates) =
      (if (netCostAllows settings suffixTokens state candidate).1 then [candidate] else []) ++
        admitted settings suffixTokens (netCostAllows settings suffixTokens state candidate).2
          candidates := by
  rw [admitted, gateRun, List.filter_cons]
  split_ifs <;> rfl

include hreads halive in
/-- A run of candidates in any order. -/
theorem admitted_pays (candidates : List Candidate)
    (hpays : Pays settings suffixTokens state.floor batch) :
    ∃ floor, Pays settings suffixTokens floor
      (batch ++ admitted settings suffixTokens state candidates) := by
  induction candidates generalizing state batch with
  | nil =>
      rw [admitted, gateRun, List.filter_nil, List.map_nil, List.append_nil]
      exact ⟨_, hpays⟩
  | cons candidate candidates ih =>
      rw [admitted_cons, ← List.append_assoc]
      exact ih (netCostAllows_pays hreads halive hpays candidate)

/-! ## Deeper candidates -/

/-- Two floors that are shallower than the same slots up to a limit. -/
def SameUpTo (limit : ℕ) (floor other : Option ℕ) : Prop :=
  ∀ slot ≤ limit, floor.any (· < slot) = other.any (· < slot)

theorem any_netCostAllows_floor (state : GateState) (candidate : Candidate) (slot : ℕ) :
    (netCostAllows settings suffixTokens state candidate).2.floor.any (· < slot) =
      (state.floor.any (· < slot) ||
        ((netCostAllows settings suffixTokens state candidate).1 &&
          decide (candidate.slotIdx < slot))) := by
  rw [netCostAllows_fst, netCostAllows_floor]
  by_cases hgain : 0 < candidateGain settings suffixTokens state.floor candidate
  · rw [if_pos hgain, decide_eq_true hgain, Bool.true_and]
    cases state.floor with
    | none => rfl
    | some floor => simp only [Option.elim_some, Option.any_some, min_lt_iff, Bool.decide_or]
  · rw [if_neg hgain, decide_eq_false hgain, Bool.false_and, Bool.or_false]

variable {limit : ℕ}

/-- A deeper candidate leaves the floor as shallower ones see it. -/
theorem sameUpTo_netCostAllows (state : GateState) (hdeeper : limit ≤ candidate.slotIdx) :
    SameUpTo limit (netCostAllows settings suffixTokens state candidate).2.floor state.floor := by
  intro slot hslot
  rw [any_netCostAllows_floor, decide_eq_false (hslot.trans hdeeper).not_gt, Bool.and_false,
    Bool.or_false]

theorem SameUpTo.step {other : GateState} (hsame : SameUpTo limit state.floor other.floor)
    (hshallower : candidate.slotIdx ≤ limit) :
    (netCostAllows settings suffixTokens state candidate).1 =
        (netCostAllows settings suffixTokens other candidate).1 ∧
      SameUpTo limit (netCostAllows settings suffixTokens state candidate).2.floor
        (netCostAllows settings suffixTokens other candidate).2.floor := by
  have hallows : (netCostAllows settings suffixTokens state candidate).1 =
      (netCostAllows settings suffixTokens other candidate).1 := by
    rw [netCostAllows_fst, netCostAllows_fst, candidateGain, candidateGain, chargedSuffix,
      chargedSuffix, batchReclaim, batchReclaim, hsame _ hshallower]
  refine ⟨hallows, fun slot hslot => ?_⟩
  rw [any_netCostAllows_floor, any_netCostAllows_floor, hsame slot hslot, hallows]

theorem gateRun_append (state : GateState) (candidates more : List Candidate) :
    gateRun settings suffixTokens state (candidates ++ more) =
      gateRun settings suffixTokens state candidates ++
        gateRun settings suffixTokens (gateState settings suffixTokens state candidates) more := by
  induction candidates generalizing state with
  | nil => rfl
  | cons candidate candidates ih =>
      rw [List.cons_append, gateRun, gateRun, ih, List.cons_append]
      rfl

/-- The decisions on shallower candidates agree along a run. -/
theorem SameUpTo.gateRun {other : GateState} (hsame : SameUpTo limit state.floor other.floor)
    (candidates : List Candidate) :
    (gateRun settings suffixTokens state candidates).filter (·.1.slotIdx < limit) =
      (gateRun settings suffixTokens other candidates).filter (·.1.slotIdx < limit) := by
  induction candidates generalizing state other with
  | nil => rfl
  | cons candidate candidates ih =>
      rw [NetCost.gateRun, NetCost.gateRun, List.filter_cons, List.filter_cons]
      by_cases hshallower : candidate.slotIdx < limit
      · obtain ⟨hallows, hfloors⟩ := hsame.step hshallower.le
        rw [if_pos (decide_eq_true hshallower), if_pos (decide_eq_true hshallower), hallows,
          ih hfloors]
      · have hdeeper := Nat.le_of_not_lt hshallower
        rw [if_neg (by simpa using hdeeper), if_neg (by simpa using hdeeper)]
        refine ih fun slot hslot => ?_
        rw [sameUpTo_netCostAllows state hdeeper slot hslot, hsame slot hslot,
          sameUpTo_netCostAllows other hdeeper slot hslot]

/-- What is admitted in one batch is nothing or pays for the suffix behind its shallowest message,
and a deeper candidate changes no decision on a shallower one. -/
theorem batch_pays (countText : Text → ℕ) (str : Value → Text) (messages : List Value)
    (hreads : 0 ≤ settings.reads) (halive : settings.pAlive ∈ Set.Icc 0 1)
    (routeCounts : Dict Text ℕ) (transformsApplied : List Text) (candidates : List Candidate) :
    let suffixTokens := netcostSuffixTokens countText str messages
    let start : GateState := ⟨none, routeCounts, transformsApplied⟩
    let batch := admitted settings suffixTokens start candidates
    (batch = [] ∨ ∃ shallowest ∈ batch,
      (∀ other ∈ batch, shallowest.slotIdx ≤ other.slotIdx) ∧
        0 < jointGain settings suffixTokens batch shallowest.slotIdx) ∧
    ∀ before deeper after, candidates = before ++ after →
      ∃ decision decisions others,
        gateRun settings suffixTokens start (before ++ deeper :: after) =
          gateRun settings suffixTokens start before ++ (deeper, decision) :: decisions ∧
        gateRun settings suffixTokens start candidates =
          gateRun settings suffixTokens start before ++ others ∧
        decisions.filter (·.1.slotIdx < deeper.slotIdx) =
          others.filter (·.1.slotIdx < deeper.slotIdx) := by
  intro suffixTokens start batch
  refine ⟨?_, fun before deeper after hcandidates => ?_⟩
  · obtain ⟨floor, hpays⟩ := admitted_pays hreads halive candidates
      (show Pays settings suffixTokens start.floor [] from .empty)
    rw [List.nil_append] at hpays
    change Pays settings suffixTokens floor batch at hpays
    clear_value batch
    cases hpays with
    | empty => exact .inl rfl
    | paid hmem hshallowest hgain => exact .inr ⟨_, hmem, hshallowest, hgain⟩
  · subst hcandidates
    refine ⟨_, _, _, gateRun_append .., gateRun_append .., ?_⟩
    exact SameUpTo.gateRun (sameUpTo_netCostAllows _ le_rfl) after

def wordMessages : List Value :=
  ["a question", "a long answer", "thanks"].map fun words =>
    .dict [(text "content", .str (text words))]

/-- The deeper message comes first, and the shallower one pays for both. -/
theorem batch_pays_two :
    let suffixTokens := netcostSuffixTokens List.length (fun _ => []) wordMessages
    let batch := admitted ⟨some 4, none, some (1 / 2)⟩ suffixTokens ⟨none, .empty, []⟩
      [⟨1, 40, 10⟩, ⟨0, 90, 20⟩]
    batch = [] ∨ ∃ shallowest ∈ batch,
      (∀ other ∈ batch, shallowest.slotIdx ≤ other.slotIdx) ∧
        0 < jointGain ⟨some 4, none, some (1 / 2)⟩ suffixTokens batch shallowest.slotIdx :=
  (@batch_pays ⟨some 4, none, some (1 / 2)⟩ List.length (fun _ => []) wordMessages
    (by decide +kernel) ⟨by decide +kernel, by decide +kernel⟩ .empty [] _).1

end NetCost

end Legroom.Transforms
