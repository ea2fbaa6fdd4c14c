import Legroom.Transforms.BlockDecisions

/-!
# Runs of decisions

A frozen verdict keeps a text compressed as long as its result is cached.  Without a cached
result the fresh gate is asked again.
-/

namespace Legroom.BlockDecisions

open Python LosslessCompaction LosslessRouter

variable {K S : Type} [DecidableEq K] {router : Router K S}

/-! ## Verdicts -/

variable {key : K} {verdict : Bool}

theorem get?_of_evictOldest {verdicts : Dict K Bool}
    (hget : (evictOldest verdicts).get? key = some verdict) : verdicts.get? key = some verdict :=
  Dict.get?_eq_some_iff.mpr (List.mem_of_mem_drop (Dict.get?_eq_some_iff.mp hget))

variable {state : RouterState K S}

theorem getFrozenVerdict_record {other : K} {found : Bool}
    (hget : getFrozenVerdict other (recordFrozenVerdict key verdict state) = some found) :
    if other = key then found = verdict else getFrozenVerdict other state = some found := by
  rw [getFrozenVerdict, recordFrozenVerdict, Dict.get?_set] at hget
  split_ifs at hget ⊢ with hother hroom
  · exact (Option.some_inj.mp hget).symm
  · exact get?_of_evictOldest hget
  · exact hget

theorem getFrozenVerdict_freezeIf {condition : Bool} {other : K} {found : Bool}
    (hget : getFrozenVerdict other (freezeIf router condition key verdict state) = some found) :
    getFrozenVerdict other state = some found ∨ other = key ∧ found = verdict := by
  rw [freezeIf] at hget
  split_ifs at hget
  · have hrecord := getFrozenVerdict_record hget
    split_ifs at hrecord with hother
    · exact Or.inr ⟨hother, hrecord⟩
    · exact Or.inl hrecord
  · exact Or.inl hget

/-! ## Decisions for other keys -/

/-- What is kept for the key was kept before. -/
structure Shrinks (key : K) (state after : RouterState K S) : Prop where
  results : ∀ entry, after.results key = some entry → state.results key = some entry
  skip : ∀ since, after.skip key = some since → state.skip key = some since
  verdict : ∀ verdict, getFrozenVerdict key after = some verdict →
    getFrozenVerdict key state = some verdict

namespace Shrinks

variable {key other : K} {state after behind : RouterState K S}

theorem refl (key : K) (state : RouterState K S) : Shrinks key state state :=
  ⟨fun _ => id, fun _ => id, fun _ => id⟩

theorem trans (hfirst : Shrinks key state after) (hsecond : Shrinks key after behind) :
    Shrinks key state behind :=
  ⟨fun entry hentry => hfirst.results entry (hsecond.results entry hentry),
    fun since hsince => hfirst.skip since (hsecond.skip since hsince),
    fun verdict hverdict => hfirst.verdict verdict (hsecond.verdict verdict hverdict)⟩

theorem isSkipped (router : Router K S) (now : ℚ) (key other : K) (state : RouterState K S) :
    Shrinks key state (isSkipped router now other state).2 := by
  rcases isSkipped_cases router now other state with
    ⟨since, -, hyes⟩ | ⟨after, hno, hresults, hverdicts, -, hskip⟩
  · rw [hyes]
    exact refl key state
  · rw [hno]
    exact ⟨fun entry hentry => hresults ▸ hentry, hskip key, fun verdict hverdict => by
      rwa [getFrozenVerdict, hverdicts] at hverdict⟩

theorem getResult (router : Router K S) (now : ℚ) (key other : K) (state : RouterState K S) :
    Shrinks key state (getResult router now other state).2 := by
  rcases getResult_cases router now other state with
    ⟨entry, -, hyes⟩ | ⟨after, hno, hskip, hverdicts, -, hresults⟩
  · rw [hyes]
    exact refl key state
  · rw [hno]
    exact ⟨hresults key, fun since hsince => hskip ▸ hsince, fun verdict hverdict => by
      rwa [getFrozenVerdict, hverdicts] at hverdict⟩

theorem putResult (hne : key ≠ other) (entry : CacheEntry S) (state : RouterState K S) :
    Shrinks key state (putResult other entry state) :=
  ⟨fun _ hfound => (Function.update_of_ne hne _ state.results).symm.trans hfound,
    fun _ => id, fun _ => id⟩

theorem markSkip (hne : key ≠ other) (now : ℚ) (state : RouterState K S) :
    Shrinks key state (markSkip now other state) :=
  ⟨fun _ => id, fun _ hsince => (Function.update_of_ne hne _ state.skip).symm.trans hsince,
    fun _ => id⟩

theorem moveToSkip (hne : key ≠ other) (now : ℚ) (state : RouterState K S) :
    Shrinks key state (moveToSkip now other state) :=
  ⟨fun _ hfound => (Function.update_of_ne hne _ state.results).symm.trans hfound,
    fun _ hsince => (Function.update_of_ne hne _ state.skip).symm.trans hsince, fun _ => id⟩

theorem freezeIf (router : Router K S) (hne : key ≠ other) (condition verdict : Bool)
    (state : RouterState K S) :
    Shrinks key state (freezeIf router condition other verdict state) := by
  refine ⟨fun entry hentry => by rwa [freezeIf_results] at hentry,
    fun since hsince => by rwa [freezeIf_skip] at hsince, fun found hfound => ?_⟩
  rcases getFrozenVerdict_freezeIf hfound with hbefore | ⟨heq, -⟩
  · exact hbefore
  · exact absurd heq hne

theorem storeFresh (turn : Turn) (block : Block S) (hne : key ≠ router.key block)
    (state : RouterState K S) : Shrinks key state (storeFresh router turn block state).2 := by
  rw [BlockDecisions.storeFresh]
  cases fresh router turn.minRatio block with
  | accept ratio strategy => exact (putResult hne _ state).trans (freezeIf router hne _ _ _)
  | unrecoverable => exact markSkip hne _ state
  | ratioTooHigh => exact (markSkip hne _ state).trans (freezeIf router hne _ _ _)

end Shrinks

theorem compressBlockContent_shrinks (turn : Turn) (block : Block S) (hne : key ≠ router.key block)
    (state : RouterState K S) :
    Shrinks key state (compressBlockContent router turn block state).2 := by
  have hskipped := Shrinks.isSkipped router turn.now key (router.key block) state
  rw [compressBlockContent]
  cases hskip : isSkipped router turn.now (router.key block) state with
  | mk skipped after =>
      rw [hskip] at hskipped
      have hcached := Shrinks.getResult router turn.now key (router.key block) after
      cases skipped with
      | true => exact hskipped
      | false =>
          cases hget : getResult router turn.now (router.key block) after with
          | mk cached behind =>
              rw [hget] at hcached
              simp only [hget]
              refine (hskipped.trans hcached).trans ?_
              cases cached with
              | none => exact Shrinks.storeFresh turn block hne behind
              | some entry =>
                  dsimp only
                  split_ifs
                  · exact Shrinks.freezeIf router hne _ _ _
                  · exact Shrinks.moveToSkip hne _ _

theorem lookupMessage_shrinks (turn : Turn) (block : Block S) (hne : key ≠ router.key block)
    (state : RouterState K S) : Shrinks key state (lookupMessage router turn block state).2 := by
  have hskipped := Shrinks.isSkipped router turn.now key (router.key block) state
  rw [lookupMessage]
  cases hskip : isSkipped router turn.now (router.key block) state with
  | mk skipped after =>
      rw [hskip] at hskipped
      have hcached := Shrinks.getResult router turn.now key (router.key block) after
      cases skipped with
      | true => exact hskipped
      | false =>
          cases hget : getResult router turn.now (router.key block) after with
          | mk cached behind =>
              rw [hget] at hcached
              simp only [hget]
              refine (hskipped.trans hcached).trans ?_
              cases cached with
              | none => exact Shrinks.refl key behind
              | some entry =>
                  dsimp only
                  split_ifs
                  · exact Shrinks.freezeIf router hne _ _ _
                  · exact Shrinks.refl key behind
                  · exact Shrinks.moveToSkip hne _ _

variable {current : Step S}

theorem step_shrinks (hne : key ≠ router.key current.block) (state : RouterState K S) :
    Shrinks key state (step router current state).2 := by
  rw [step]
  cases current.block.path with
  | block => exact compressBlockContent_shrinks current.turn current.block hne state
  | message =>
      cases current.isMerge with
      | false => exact lookupMessage_shrinks current.turn current.block hne state
      | true => exact Shrinks.storeFresh current.turn current.block hne state

/-! ## Decisions for the key -/

/-- Only the text that was shown is kept for the key. -/
structure Keeps (key : K) (shown : Text) (state : RouterState K S) : Prop where
  skip : state.skip key = none
  results : ∀ entry, state.results key = some entry → entry.compressed = shown ∧ entry.ratio < 1

structure Pinned (key : K) (shown : Text) (state : RouterState K S) : Prop
    extends Keeps key shown state where
  verdict : getFrozenVerdict key state ≠ some false

variable {shown : Text}
variable {after : RouterState K S}

theorem Keeps.shrink (hstate : Keeps key shown state) (hafter : Shrinks key state after) :
    Keeps key shown after where
  skip := by
    rw [Option.eq_none_iff_forall_not_mem]
    intro since hsince
    exact absurd ((hafter.skip since hsince).symm.trans hstate.skip) nofun
  results entry hentry := hstate.results entry (hafter.results entry hentry)

theorem Pinned.shrink (hstate : Pinned key shown state) (hafter : Shrinks key state after) :
    Pinned key shown after where
  toKeeps := hstate.toKeeps.shrink hafter
  verdict hfalse := hstate.verdict (hafter.verdict false hfalse)

theorem Keeps.freeze (hstate : Keeps key shown state) (condition verdict : Bool) :
    Keeps key shown (freezeIf router condition key verdict state) where
  skip := by rw [freezeIf_skip, hstate.skip]
  results entry hentry := hstate.results entry (by rwa [freezeIf_results] at hentry)

theorem Pinned.freeze (hstate : Pinned key shown state) (condition : Bool) :
    Pinned key shown (freezeIf router condition key true state) where
  toKeeps := hstate.toKeeps.freeze condition true
  verdict hfalse := by
    rcases getFrozenVerdict_freezeIf hfalse with hbefore | ⟨-, heq⟩
    · exact hstate.verdict hbefore
    · cases heq

variable {entry : CacheEntry S}

theorem Keeps.put (hskip : state.skip key = none) (hshown : entry.compressed = shown)
    (hratio : entry.ratio < 1) :
    Keeps key shown (putResult key entry state) where
  skip := hskip
  results found hfound := by
    rw [putResult] at hfound
    dsimp only at hfound
    rw [Function.update_self] at hfound
    cases hfound
    exact ⟨hshown, hratio⟩

variable {minRatio : ℚ} {block : Block S}

omit [DecidableEq K] in
theorem ratio_lt_one_of_fresh {ratio : ℚ} {strategy : StoredStrategy} (hceiling : minRatio ≤ 1)
    (hfresh : fresh router minRatio block = .accept ratio strategy) : ratio < 1 := by
  simp only [fresh] at hfresh
  cases hpath : block.path with
  | block =>
      rw [hpath] at hfresh
      dsimp only at hfresh
      split_ifs at hfresh with hbytes
      · cases hfresh
        rw [Bool.and_eq_true, decide_eq_true_eq] at hbytes
        -- A shorter text has a byte ratio below one.
        have hpos : 0 < block.content.length := Nat.zero_lt_of_lt hbytes.2
        rw [byteRatio, max_eq_right hpos, div_lt_one (Nat.cast_pos.mpr hpos)]
        exact Nat.cast_lt.mpr hbytes.2
      · obtain ⟨rfl, hratio⟩ := ratioGate_accept hfresh
        exact hratio.trans_le hceiling
  | message =>
      rw [hpath] at hfresh
      obtain ⟨rfl, hratio⟩ := ratioGate_accept hfresh
      exact hratio.trans_le hceiling

variable {turn : Turn}

/-- An accepted compression is cached, and its verdict is not a refusal. -/
theorem storeFresh_keeps (hceiling : turn.minRatio ≤ 1)
    (hskip : state.skip (router.key block) = none)
    (hfresh : freshText router turn.minRatio block = some shown) :
    (storeFresh router turn block state).1 = some shown ∧
      Keeps (router.key block) shown (storeFresh router turn block state).2 ∧
        (getFrozenVerdict (router.key block) state ≠ some false →
          getFrozenVerdict (router.key block) (storeFresh router turn block state).2 ≠
            some false) := by
  rw [freshText] at hfresh
  rw [storeFresh]
  cases haccept : fresh router turn.minRatio block with
  | accept ratio strategy =>
      rw [haccept] at hfresh
      refine ⟨hfresh, Keeps.freeze (Keeps.put hskip (Option.some_inj.mp hfresh) ?_) _ _, ?_⟩
      · exact ratio_lt_one_of_fresh hceiling haccept
      · intro hverdict hfalse
        rcases getFrozenVerdict_freezeIf hfalse with hbefore | ⟨-, heq⟩
        · exact hverdict hbefore
        · cases heq
  | unrecoverable => rw [haccept] at hfresh; cases hfresh
  | ratioTooHigh => rw [haccept] at hfresh; cases hfresh

theorem Pinned.storeFresh (hstate : Pinned (router.key block) shown state)
    (hceiling : turn.minRatio ≤ 1) (hfresh : freshText router turn.minRatio block = some shown) :
    (storeFresh router turn block state).1 = some shown ∧
      Pinned (router.key block) shown (storeFresh router turn block state).2 := by
  obtain ⟨hemission, hkeeps, hverdict⟩ := storeFresh_keeps hceiling hstate.skip hfresh
  exact ⟨hemission, hkeeps, hverdict hstate.verdict⟩

theorem freshText_of_storeFresh (hemission : (storeFresh router turn block state).1 = some shown) :
    freshText router turn.minRatio block = some shown := by
  rw [storeFresh] at hemission
  rw [freshText]
  cases haccept : fresh router turn.minRatio block with
  | accept ratio strategy => rw [haccept] at hemission; exact hemission
  | unrecoverable => rw [haccept] at hemission; cases hemission
  | ratioTooHigh => rw [haccept] at hemission; cases hemission

/-! ## A frozen verdict -/

theorem isSkipped_of_none {now : ℚ} (hskip : state.skip key = none) :
    isSkipped router now key state = (false, state) := by
  rw [isSkipped, hskip]

theorem acceptThreshold_frozen (hfreeze : router.freezeDecision = true)
    (hverdict : getFrozenVerdict key state = some true) :
    acceptThreshold router minRatio key state = 1 := if_pos ⟨hfreeze, hverdict⟩

/-- A decision for which nothing is cached. -/
def asksFresh (router : Router K S) (current : Step S) (state : RouterState K S) : Prop :=
  current.block.path = .message ∧ current.isMerge = true ∨
    (getResult router current.turn.now (router.key current.block) state).1 = none

/-- The verdict is still there, and where nothing is cached the fresh gate passes again. -/
structure Renewed (router : Router K S) (shown : Text) (current : Step S)
    (state : RouterState K S) : Prop where
  kept : (getFrozenVerdict (router.key current.block) state).isSome = true
  allows : current.turn.netCostAllows = true
  fresh : asksFresh router current state → current.turn.minRatio ≤ 1 ∧
    freshText router current.turn.minRatio current.block = some shown

theorem Pinned.threshold (hstate : Pinned (router.key current.block) shown state)
    (hfreeze : router.freezeDecision = true) (hrenewed : Renewed router shown current state) :
    acceptThreshold router current.turn.minRatio (router.key current.block) state = 1 := by
  obtain ⟨verdict, hverdict⟩ := Option.isSome_iff_exists.mp hrenewed.kept
  cases verdict with
  | false => exact absurd hverdict hstate.verdict
  | true => exact acceptThreshold_frozen hfreeze hverdict

/-- A result that is served has the text that was shown, and any other is made again. -/
theorem Pinned.cached (hstate : Pinned (router.key current.block) shown state)
    (hfreeze : router.freezeDecision = true) (hrenewed : Renewed router shown current state) :
    (∃ entry, getResult router current.turn.now (router.key current.block) state =
        (some entry, state) ∧ entry.compressed = shown ∧
          entry.ratio < acceptThreshold router current.turn.minRatio (router.key current.block)
            state) ∨
      ∃ after, getResult router current.turn.now (router.key current.block) state = (none, after) ∧
        Pinned (router.key current.block) shown after ∧ current.turn.minRatio ≤ 1 ∧
          freshText router current.turn.minRatio current.block = some shown := by
  have hshrinks := Shrinks.getResult router current.turn.now (router.key current.block)
    (router.key current.block) state
  rcases getResult_cases router current.turn.now (router.key current.block) state with
    ⟨entry, hentry, hresult⟩ | ⟨after, hresult, -⟩
  · obtain ⟨hshown, hratio⟩ := hstate.results entry hentry
    exact Or.inl ⟨entry, hresult, hshown, (hstate.threshold hfreeze hrenewed).symm ▸ hratio⟩
  · rw [hresult] at hshrinks
    obtain ⟨hceiling, hfresh⟩ := hrenewed.fresh (Or.inr (congrArg Prod.fst hresult))
    exact Or.inr ⟨after, hresult, hstate.shrink hshrinks, hceiling, hfresh⟩

/-- A decision for the key shows the same text. -/
theorem step_pinned (hstate : Pinned (router.key current.block) shown state)
    (hfreeze : router.freezeDecision = true) (hrenewed : Renewed router shown current state) :
    (∀ emission ∈ (step router current state).1, emission = some shown) ∧
      Pinned (router.key current.block) shown (step router current state).2 := by
  have hskipped : isSkipped router current.turn.now (router.key current.block) state =
      (false, state) := isSkipped_of_none hstate.skip
  have hcached := hstate.cached hfreeze hrenewed
  rw [step]
  cases hpath : current.block.path with
  | block =>
      simp only [compressBlockContent, hskipped]
      rcases hcached with ⟨entry, hresult, hshown, hratio⟩ | ⟨after, hresult, hafter, hrest⟩
      · simp only [hresult, if_pos hratio]
        exact ⟨fun emission hemission => (Option.some_inj.mp hemission).symm.trans
          (congrArg some hshown), hstate.freeze _⟩
      · simp only [hresult]
        obtain ⟨hemission, hpinned⟩ := hafter.storeFresh hrest.1 hrest.2
        exact ⟨fun emission hfound => (Option.some_inj.mp hfound).symm.trans hemission, hpinned⟩
  | message =>
      cases hmerge : current.isMerge with
      | false =>
          simp only [lookupMessage, hskipped]
          rcases hcached with ⟨entry, hresult, hshown, hratio⟩ | ⟨after, hresult, hafter, -⟩
          · simp only [hresult, if_pos hratio, if_pos hrenewed.allows]
            exact ⟨fun emission hemission => (Option.some_inj.mp hemission).symm.trans
              (congrArg some hshown), hstate.freeze _⟩
          · simp only [hresult]
            exact ⟨fun _ hnone => absurd hnone (Option.not_mem_none _), hafter⟩
      | true =>
          obtain ⟨hceiling, hfresh⟩ := hrenewed.fresh (Or.inl ⟨hpath, hmerge⟩)
          obtain ⟨hemission, hpinned⟩ := hstate.storeFresh hceiling hfresh
          simp only [mergeMessage, if_pos hrenewed.allows]
          exact ⟨fun emission hfound => (Option.some_inj.mp hfound).symm.trans hemission, hpinned⟩

variable {steps : List (Step S)}

/-- All decisions of a run for the key show the same text. -/
theorem run_pinned (hfreeze : router.freezeDecision = true) (hstate : Pinned key shown state)
    (hsteps : ∀ decision ∈ run router state steps, router.key decision.1.block = key →
      Renewed router shown decision.1 decision.2.1) :
    ∀ decision ∈ run router state steps, router.key decision.1.block = key →
      ∀ emission ∈ decision.2.2, emission = some shown := by
  induction steps generalizing state with
  | nil => exact fun decision hdecision => absurd hdecision List.not_mem_nil
  | cons current rest ih =>
      rw [run, List.forall_mem_cons] at hsteps ⊢
      obtain ⟨hcurrent, hrest⟩ := hsteps
      by_cases hkey : router.key current.block = key
      · subst hkey
        obtain ⟨hemission, hafter⟩ := step_pinned hstate hfreeze (hcurrent rfl)
        exact ⟨fun _ => hemission, ih hafter hrest⟩
      · have hafter := hstate.shrink (step_shrinks (Ne.symm hkey) state)
        exact ⟨fun heq => absurd heq hkey, ih hafter hrest⟩

theorem acceptThreshold_le_one (hceiling : minRatio ≤ 1) (key : K) (state : RouterState K S) :
    acceptThreshold router minRatio key state ≤ 1 := by
  rw [acceptThreshold]
  split_ifs
  · exact le_refl 1
  · exact hceiling

omit [DecidableEq K] in
theorem keeps_of_cached (hskip : state.skip key = none) (hentry : state.results key = some entry)
    (hratio : entry.ratio < 1) :
    Keeps key entry.compressed state where
  skip := hskip
  results found hfound := by
    cases hentry.symm.trans hfound
    exact ⟨rfl, hratio⟩

/-- What a decision leaves behind that shows a compressed text. -/
theorem keeps_of_emission {first : Step S} (hceiling : first.turn.minRatio ≤ 1)
    (hmerge : first.block.path = .message → first.isMerge = true →
      state.skip (router.key first.block) = none)
    (hemission : (step router first state).1 = some (some shown)) :
    Keeps (router.key first.block) shown (step router first state).2 := by
  rw [step] at hemission ⊢
  cases hpath : first.block.path with
  | block =>
      simp only [hpath, compressBlockContent] at hemission ⊢
      rcases isSkipped_cases router first.turn.now (router.key first.block) state with
        ⟨since, -, hskipped⟩ | ⟨after, hskipped, -, -, hskip, -⟩
      · simp only [hskipped] at hemission
        cases hemission
      · simp only [hskipped] at hemission ⊢
        rcases getResult_cases router first.turn.now (router.key first.block) after with
          ⟨entry, hentry, hresult⟩ | ⟨behind, hresult, hsame, -⟩
        · simp only [hresult] at hemission ⊢
          split_ifs at hemission ⊢ with hratio
          · cases hemission
            have hbelow := hratio.trans_le (acceptThreshold_le_one hceiling _ _)
            exact (keeps_of_cached hskip hentry hbelow).freeze _ _
          · cases hemission
        · simp only [hresult] at hemission ⊢
          have hfresh := freshText_of_storeFresh (Option.some_inj.mp hemission)
          exact (storeFresh_keeps hceiling (hsame ▸ hskip) hfresh).2.1
  | message =>
      cases hkind : first.isMerge with
      | false =>
          simp only [hpath, hkind, lookupMessage] at hemission ⊢
          rcases isSkipped_cases router first.turn.now (router.key first.block) state with
            ⟨since, -, hskipped⟩ | ⟨after, hskipped, -, -, hskip, -⟩
          · simp only [hskipped] at hemission
            cases hemission
          · simp only [hskipped] at hemission ⊢
            rcases getResult_cases router first.turn.now (router.key first.block) after with
              ⟨entry, hentry, hresult⟩ | ⟨behind, hresult, -⟩
            · simp only [hresult] at hemission ⊢
              split_ifs at hemission ⊢ with hratio hallows
              · cases hemission
                have hbelow := hratio.trans_le (acceptThreshold_le_one hceiling _ _)
                exact (keeps_of_cached hskip hentry hbelow).freeze _ _
              · cases hemission
              · cases hemission
            · simp only [hresult] at hemission
              cases hemission
      | true =>
          simp only [hpath, hkind, mergeMessage] at hemission ⊢
          split_ifs at hemission with hallows
          · have hfresh := freshText_of_storeFresh (Option.some_inj.mp hemission)
            exact (storeFresh_keeps hceiling (hmerge hpath hkind) hfresh).2.1
          · cases hemission

/-! ## Later turns -/

/-- With one threshold all decisions about a block are the same.  A block that was shown
compressed under a frozen verdict is shown so again, whatever the thresholds are. -/
theorem decisions_stable (router : Router K S) :
    (∀ minRatio steps, Agreeing router minRatio (steps.map Step.block) →
      (∀ current ∈ steps, current.turn.minRatio = minRatio ∧ current.turn.netCostAllows = true) →
        ∀ first ∈ run router RouterState.empty steps,
          ∀ second ∈ run router RouterState.empty steps, first.1.block = second.1.block →
            ∀ shown ∈ first.2.2, ∀ again ∈ second.2.2, shown = again) ∧
      (router.freezeDecision = true → ∀ state first later shown, first.turn.minRatio ≤ 1 →
        (first.block.path = .message → first.isMerge = true →
          state.skip (router.key first.block) = none) →
        (step router first state).1 = some (some shown) →
        getFrozenVerdict (router.key first.block) (step router first state).2 = some true →
        (∀ decision ∈ run router (step router first state).2 later,
          router.key decision.1.block = router.key first.block →
            Renewed router shown decision.1 decision.2.1) →
        ∀ decision ∈ run router (step router first state).2 later,
          router.key decision.1.block = router.key first.block →
            ∀ again ∈ decision.2.2, again = some shown) := by
  constructor
  · intro minRatio steps hagreeing hsteps first hfirst second hsecond hblock shown hshown again
      hagain
    have hrun := run_faithful hagreeing (faithful_empty minRatio _) fun current hcurrent =>
      ⟨List.mem_map_of_mem hcurrent, hsteps current hcurrent⟩
    calc
      shown = freshText router minRatio first.1.block := hrun first hfirst shown hshown
      _ = freshText router minRatio second.1.block := by rw [hblock]
      _ = again := (hrun second hsecond again hagain).symm
  · intro hfreeze state first later shown hceiling hmerge hemission hverdict hlater
    have hkeeps := keeps_of_emission hceiling hmerge hemission
    have hpinned : Pinned (router.key first.block) shown (step router first state).2 :=
      ⟨hkeeps, by rw [hverdict]; nofun⟩
    exact run_pinned hfreeze hpinned hlater

theorem mem_of_mem_run {decision : Step S × RouterState K S × Option Emission}
    (hdecision : decision ∈ run router state steps) : decision.1 ∈ steps := by
  induction steps generalizing state with
  | nil => exact absurd hdecision List.not_mem_nil
  | cons current rest ih =>
      rcases List.mem_cons.mp hdecision with rfl | hrest
      · exact List.mem_cons_self
      · exact List.mem_cons_of_mem _ (ih hrest)

/-- A router whose compressors give one result. -/
def routerOf (result : CompressionResult) (freezeDecision : Bool) : Router Text Unit where
  key := Block.content
  compress _ := result
  countText := List.length
  ttlSeconds := 1
  ccrInjectMarker := true
  freezeDecision := freezeDecision

/-- A fold of ten characters to nine. -/
def slightFold : CompressionResult where
  compressed := text "123456789"
  strategyUsed := .search
  strategyChain := [.lossless .search]
  compressionRatio := 9 / 10

/-- A compression of ten characters to six. -/
def crushed : CompressionResult where
  compressed := text "123456"
  strategyUsed := .smartCrusher
  strategyChain := [.strategy .smartCrusher]
  compressionRatio := 6 / 10

def stepAt (place : Place) (isMerge : Bool) (now minRatio : ℚ) : Step Unit where
  block := ⟨text "1234567890", place, ()⟩
  turn := ⟨now, minRatio, true, true⟩
  isMerge := isMerge

def messageAt : Bool → ℚ → ℚ → Step Unit := stepAt (.message false)

def blockAt : Bool → ℚ → ℚ → Step Unit := stepAt .toolResult

theorem decisions_stable_crushed :
    (∀ decision ∈ run (routerOf crushed true) RouterState.empty
        [messageAt true 0 (7 / 10), messageAt false 2 (7 / 10),
          messageAt true 2 (7 / 10)],
      ∀ again ∈ decision.2.2, some (text "123456") = again) ∧
      ∀ decision ∈ run (routerOf crushed true)
          (step (routerOf crushed true) (messageAt true 0 (65 / 100)) RouterState.empty).2
          [messageAt false (1 / 2) (1 / 2)],
        ∀ again ∈ decision.2.2, again = some (text "123456") := by
  have hstable := decisions_stable (routerOf crushed true)
  constructor
  · intro decision hdecision again hagain
    have hblocks : ∀ current ∈ [messageAt true 0 (7 / 10), messageAt false 2 (7 / 10),
        messageAt true 2 (7 / 10)],
        current.block = ⟨text "1234567890", .message false, ()⟩ := by
      simp [messageAt, stepAt]
    refine hstable.1 (7 / 10) _ ⟨?_, ?_, ?_⟩ ?_ _ List.mem_cons_self decision hdecision
      (hblocks _ (mem_of_mem_run hdecision)).symm _ ?_ again hagain
    · intro block hfound hpath
      obtain ⟨current, hcurrent, rfl⟩ := List.mem_map.mp hfound
      rw [hblocks current hcurrent] at hpath
      cases hpath
    · exact fun _ => by norm_num
    · intro first hfirst second hsecond _
      obtain ⟨earlier, hearlier, rfl⟩ := List.mem_map.mp hfirst
      obtain ⟨later, hlater, rfl⟩ := List.mem_map.mp hsecond
      rw [hblocks earlier hearlier, hblocks later hlater]
    · simp [messageAt, stepAt]
    · exact (by decide +kernel : (step (routerOf crushed true) (messageAt true 0 (7 / 10))
        RouterState.empty).1 = some (some (text "123456")))
  · intro decision hdecision
    refine hstable.2 rfl RouterState.empty (messageAt true 0 (65 / 100)) _ _ ?_ ?_ ?_ ?_ ?_
      decision hdecision ?_
    · norm_num [messageAt, stepAt]
    · exact fun _ _ => rfl
    · decide +kernel
    · decide +kernel
    · intro later hlater _
      rw [run, run, List.mem_singleton] at hlater
      subst hlater
      refine ⟨by decide +kernel, rfl, fun hasks => ?_⟩
      rcases hasks with ⟨-, hmerge⟩ | hnone
      · cases hmerge
      · exact absurd hnone (by decide +kernel)
    · rw [run, run, List.mem_singleton] at hdecision
      rw [hdecision]
      rfl

/-- A fold that is accepted on its length is refused by the threshold for cached results, and a
frozen verdict is not looked at where the result has expired. -/
theorem decisions_flip :
    (¬ ∀ (router : Router Text Unit) (minRatio : ℚ) (steps : List (Step Unit)),
      (∀ current ∈ steps, current.turn.minRatio = minRatio ∧ current.turn.modelReady = true ∧
        current.turn.netCostAllows = true) →
        ∀ first ∈ run router RouterState.empty steps,
          ∀ second ∈ run router RouterState.empty steps, first.1.block = second.1.block →
            ∀ shown ∈ first.2.2, ∀ again ∈ second.2.2, shown = again) ∧
      ¬ ∀ router : Router Text Unit, router.freezeDecision = true → ∀ first later shown,
        (step router first RouterState.empty).1 = some (some shown) →
        (∀ decision ∈ run router (step router first RouterState.empty).2 later,
          router.key decision.1.block = router.key first.block →
            decision.1.turn.netCostAllows = true ∧
              getFrozenVerdict (router.key first.block) decision.2.1 = some true) →
        ∀ decision ∈ run router (step router first RouterState.empty).2 later,
          router.key decision.1.block = router.key first.block →
            ∀ again ∈ decision.2.2, again = some shown := by
  constructor
  · intro hclaim
    have hsame := hclaim (routerOf slightFold false) (17 / 20)
      [blockAt false 0 (17 / 20), blockAt false (1 / 2) (17 / 20)]
      (by simp [blockAt, stepAt]) _ List.mem_cons_self _
      (List.mem_cons_of_mem _ List.mem_cons_self) rfl
    have hfirst : (step (routerOf slightFold false) (blockAt false 0 (17 / 20))
        RouterState.empty).1 = some (some (text "123456789")) := by decide +kernel
    have hsecond : (step (routerOf slightFold false) (blockAt false (1 / 2) (17 / 20))
        (step (routerOf slightFold false) (blockAt false 0 (17 / 20))
          RouterState.empty).2).1 = some none := by decide +kernel
    cases hsame _ hfirst _ hsecond
  · intro hclaim
    have hsame := hclaim (routerOf crushed true) rfl (messageAt true 0 (65 / 100))
      [messageAt true 2 (1 / 2)] (text "123456") (by decide +kernel) (by
        intro decision hdecision _
        rw [run, run, List.mem_singleton] at hdecision
        rw [hdecision]
        exact ⟨rfl, by decide +kernel⟩) _ List.mem_cons_self rfl
    have hlater : (step (routerOf crushed true) (messageAt true 2 (1 / 2))
        (step (routerOf crushed true) (messageAt true 0 (65 / 100))
          RouterState.empty).2).1 = some none := by decide +kernel
    cases hsame _ hlater

end Legroom.BlockDecisions
