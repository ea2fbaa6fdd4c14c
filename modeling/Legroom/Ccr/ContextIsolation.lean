import Legroom.Ccr.ContextTracker
import Mathlib.Data.List.Dedup
import Mathlib.Data.List.Perm.Subperm
import Mathlib.Data.List.ReduceOption

/-!
# Isolation of workspaces

A workspace is answered as if the others were not there, as long as no other one tracks a hash
of its own and nothing is evicted.
-/

namespace Legroom.ContextTracker

open Python

variable {F : Type*} [Float64 F] {tools : TextTools} {config : ContextTrackerConfig F}

/-! ## The map and the order list -/

/-- The order list holds the keys of the map, each once. -/
def WellOrdered (tracker : Tracker F) : Prop :=
  tracker.turnOrder.Nodup ∧ ∀ key, key ∈ tracker.turnOrder ↔ key ∈ tracker.contexts.keys

variable {contexts : Dict Text (CompressedContext F)}

theorem evict_ordered (limit : ℤ) {turnOrder : List Text} (hnodup : turnOrder.Nodup)
    (hkeys : ∀ key, key ∈ turnOrder ↔ key ∈ contexts.keys) :
    (evict limit contexts turnOrder).2.1.Nodup ∧
      ∀ key, key ∈ (evict limit contexts turnOrder).2.1 ↔
        key ∈ (evict limit contexts turnOrder).1.keys := by
  induction turnOrder generalizing contexts with
  | nil => exact ⟨hnodup, hkeys⟩
  | cons oldest turnOrder ih =>
      rw [evict]
      obtain ⟨holdest, hnodup'⟩ := List.nodup_cons.mp hnodup
      split_ifs with hlimit
      · refine ih hnodup' fun key => ?_
        rw [Dict.mem_keys_erase, ← hkeys, List.mem_cons]
        constructor
        · exact fun hkey => ⟨fun hsame => holdest (hsame ▸ hkey), .inr hkey⟩
        · exact fun hkey => hkey.2.resolve_left hkey.1
      · exact ⟨hnodup, hkeys⟩

variable {tracker : Tracker F}

theorem moveToEnd_ordered (hordered : WellOrdered tracker) (key : Text)
    (context : CompressedContext F) :
    (tracker.moveToEnd key).Nodup ∧
      ∀ other, other ∈ tracker.moveToEnd key ↔ other ∈ (tracker.contexts.set key context).keys := by
  obtain ⟨hnodup, hkeys⟩ := hordered
  have herase : (tracker.moveToEnd key) = tracker.turnOrder.erase key ++ [key] := by
    rw [Tracker.moveToEnd]
    split_ifs with hkey
    · rfl
    · rw [List.erase_of_not_mem (mt (hkeys key).mp hkey)]
  rw [herase]
  constructor
  · exact (hnodup.erase key).append (List.nodup_singleton key)
      (List.disjoint_singleton.mpr hnodup.not_mem_erase)
  · intro other
    rw [List.mem_append, List.mem_singleton, hnodup.mem_erase_iff, hkeys, Dict.mem_keys_set]
    tauto

theorem step_ordered (hordered : WellOrdered tracker) (call : Call F) :
    WellOrdered (step tools config tracker call).1 := by
  cases call with
  | track compression now =>
      rw [step, trackCompression]
      split_ifs with htracked
      · obtain ⟨hnodup, hkeys⟩ :=
          moveToEnd_ordered hordered compression.hashKey (compression.context now)
        have hevicted := evict_ordered config.maxTrackedContexts hnodup hkeys
        dsimp only
        split_ifs <;> exact hevicted
      · exact hordered
  | query query currentTurn workspaceKey now =>
      rw [step, analyzeQuery]
      split_ifs
      · exact hordered
      · exact hordered

theorem after_ordered {tracker : Tracker F} (hordered : WellOrdered tracker)
    (calls : List (Call F)) : WellOrdered (after tools config tracker calls) := by
  induction calls generalizing tracker with
  | nil => exact hordered
  | cons call calls ih => exact ih (step_ordered hordered call)

theorem empty_ordered : WellOrdered (.empty : Tracker F) :=
  ⟨List.nodup_nil, fun _ => Iff.rfl⟩

/-! ## What is recommended -/

/-- A compression that was tracked for a workspace in some calls. -/
def Tracks (tools : TextTools) (config : ContextTrackerConfig F) (calls : List (Call F))
    (workspaceKey key : Text) : Prop :=
  ∃ compression now, Call.track compression now ∈ calls ∧
    isTracked tools config compression = true ∧
      compression.workspaceKey = workspaceKey ∧ compression.hashKey = key

/-- The contexts of a map come from tracked compressions. -/
def ComesFrom (tools : TextTools) (config : ContextTrackerConfig F) (calls : List (Call F))
    (contexts : Dict Text (CompressedContext F)) : Prop :=
  ∀ key context, contexts.get? key = some context →
    Tracks tools config calls context.workspaceKey key

variable {calls : List (Call F)}

theorem ComesFrom.evict (limit : ℤ) (turnOrder : List Text)
    (hcontexts : ComesFrom tools config calls contexts) :
    ComesFrom tools config calls (evict limit contexts turnOrder).1 := by
  induction turnOrder generalizing contexts with
  | nil => exact hcontexts
  | cons oldest turnOrder ih =>
      rw [ContextTracker.evict]
      split_ifs with hlimit
      · refine ih fun key context hget => ?_
        rw [Dict.get?_erase] at hget
        split_ifs at hget
        exact hcontexts key context hget
      · exact hcontexts

variable {now : F}
variable {compression : Compression}

theorem ComesFrom.set (hcontexts : ComesFrom tools config calls contexts)
    (hmem : Call.track compression now ∈ calls)
    (htracked : isTracked tools config compression = true) :
    ComesFrom tools config calls
      (contexts.set compression.hashKey (compression.context now)) := by
  intro key context hget
  rw [Dict.get?_set] at hget
  split_ifs at hget with hkey
  · obtain rfl := Option.some.inj hget
    exact ⟨compression, now, hmem, htracked, rfl, hkey.symm⟩
  · exact hcontexts key context hget

theorem ComesFrom.step (hcontexts : ComesFrom tools config calls tracker.contexts) {call : Call F}
    (hmem : call ∈ calls) :
    ComesFrom tools config calls (step tools config tracker call).1.contexts := by
  cases call with
  | track compression now =>
      rw [ContextTracker.step, trackCompression]
      split_ifs with htracked
      · have hevicted := (hcontexts.set hmem htracked).evict config.maxTrackedContexts
          (tracker.moveToEnd compression.hashKey)
        dsimp only
        split_ifs <;> exact hevicted
      · exact hcontexts
  | query query currentTurn workspaceKey now =>
      rw [ContextTracker.step, analyzeQuery]
      split_ifs
      · exact hcontexts
      · exact hcontexts

theorem after_comesFrom (hcontexts : ComesFrom tools config calls tracker.contexts)
    {more : List (Call F)} (hmore : more ⊆ calls) :
    ComesFrom tools config calls (after tools config tracker more).contexts := by
  induction more generalizing tracker with
  | nil => exact hcontexts
  | cons call more ih =>
      obtain ⟨hcall, hmore⟩ := List.cons_subset.mp hmore
      exact ih (hcontexts.step hcall) hmore

variable {recommendation : ExpansionRecommendation F}

theorem hashKey_of_recommend {query : Text} {entry : Text × CompressedContext F}
    (hfound : recommend tools config query now entry = some (some recommendation)) :
    recommendation.hashKey = entry.1 := by
  rw [recommend] at hfound
  dsimp only at hfound
  split_ifs at hfound
  · cases Option.some.inj hfound
  · obtain ⟨reason, -, hreason⟩ := Option.map_eq_some_iff.mp hfound
    rw [← Option.some.inj hreason]
  · cases Option.some.inj hfound

theorem mem_of_mem_sliceTo {α : Type*} {items : List α} {bound : ℤ} {item : α}
    (hitem : item ∈ sliceTo items bound) : item ∈ items := by
  rw [sliceTo] at hitem
  split_ifs at hitem
  · exact List.mem_of_mem_take hitem
  · exact List.mem_of_mem_take hitem

variable {workspaceKey : Text}

/-- A query is answered with hashes of its own workspace only. -/
theorem workspace_of_recommended {query : Text} {currentTurn : Option ℤ}
    {recommendations : List (ExpansionRecommendation F)}
    (houtcome : (step tools config tracker (.query query currentTurn workspaceKey now)).2 =
      .recommended recommendations) (hmem : recommendation ∈ recommendations) :
    ∃ context, tracker.contexts.get? recommendation.hashKey = some context ∧
      context.workspaceKey = workspaceKey := by
  rw [step, analyzeQuery] at houtcome
  split_ifs at houtcome
  · rw [← Outcome.recommended.inj houtcome] at hmem
    exact absurd hmem List.not_mem_nil
  · dsimp only at houtcome
    cases hfound : (ofWorkspace workspaceKey tracker.contexts).entries.mapM
        (recommend tools config query now) with
    | none =>
        rw [hfound] at houtcome
        cases houtcome
    | some found =>
        rw [hfound] at houtcome
        rw [← Outcome.recommended.inj houtcome] at hmem
        have hfrom := List.reduceOption_mem_iff.mp (List.mem_mergeSort.mp (mem_of_mem_sliceTo hmem))
        obtain ⟨entry, hentry, hrecommend⟩ := (mem_of_mapM hfound).mp hfrom
        obtain ⟨hentry, howned⟩ := List.mem_filter.mp hentry
        rw [hashKey_of_recommend hrecommend]
        exact ⟨entry.2, Dict.get?_eq_some_iff.mpr hentry, of_decide_eq_true howned⟩

/-! ## Purging the other workspaces -/

/-- No other workspace tracks a hash that a workspace tracks. -/
def Owns (tools : TextTools) (config : ContextTrackerConfig F) (workspaceKey : Text)
    (calls : List (Call F)) : Prop :=
  ∀ key, Tracks tools config calls workspaceKey key →
    ∀ other, Tracks tools config calls other key → other = workspaceKey

/-- The hashes that are tracked. -/
def trackedKeys (tools : TextTools) (config : ContextTrackerConfig F) (calls : List (Call F)) :
    List Text :=
  calls.filterMap fun
    | .track compression _ =>
        if isTracked tools config compression then some compression.hashKey else none
    | .query .. => none

/-- Nothing has to be evicted. -/
def Fits (tools : TextTools) (config : ContextTrackerConfig F) (calls : List (Call F)) : Prop :=
  ((trackedKeys tools config calls).dedup.length : ℤ) ≤ config.maxTrackedContexts

omit [Float64 F] in
theorem mem_trackedKeys {key : Text} (htracks : Tracks tools config calls workspaceKey key) :
    key ∈ trackedKeys tools config calls := by
  obtain ⟨compression, now, hmem, htracked, -, rfl⟩ := htracks
  exact List.mem_filterMap.mpr ⟨_, hmem, if_pos htracked⟩

theorem size_le (hcontexts : ComesFrom tools config calls contexts)
    (hfits : Fits tools config calls) : (contexts.size : ℤ) ≤ config.maxTrackedContexts := by
  refine le_trans (Int.ofNat_le.mpr ?_) hfits
  have hsubset : contexts.keys ⊆ (trackedKeys tools config calls).dedup := fun key hkey =>
    let ⟨context, hget⟩ := Dict.mem_keys_iff.mp hkey
    List.mem_dedup.mpr (mem_trackedKeys (hcontexts key context hget))
  have hlength := (List.Nodup.subperm contexts.nodup hsubset).length_le
  rwa [List.length_map] at hlength

/-- Without an eviction a tracked context is set. -/
theorem step_track (hcontexts : ComesFrom tools config calls tracker.contexts)
    (hfits : Fits tools config calls) (hmem : Call.track compression now ∈ calls) :
    (step tools config tracker (.track compression now)).2 = .tracked ∧
      (step tools config tracker (.track compression now)).1.contexts =
        if isTracked tools config compression then
          tracker.contexts.set compression.hashKey (compression.context now)
        else tracker.contexts := by
  rw [step, trackCompression]
  split_ifs with htracked
  · have hsize := size_le (hcontexts.set hmem htracked) hfits
    have hevict : evict config.maxTrackedContexts
        (tracker.contexts.set compression.hashKey (compression.context now))
        (tracker.moveToEnd compression.hashKey) =
          (tracker.contexts.set compression.hashKey (compression.context now),
            tracker.moveToEnd compression.hashKey, false) := by
      cases tracker.moveToEnd compression.hashKey with
      | nil => rw [evict, decide_eq_false hsize.not_gt]
      | cons oldest turnOrder => rw [evict, if_neg hsize.not_gt]
    dsimp only
    rw [hevict]
    exact ⟨rfl, rfl⟩
  · exact ⟨rfl, rfl⟩

/-- The calls of a workspace. -/
def callsOf (workspaceKey : Text) (calls : List (Call F)) : List (Call F) :=
  calls.filter fun call => call.workspaceKey = workspaceKey

variable (workspaceKey : Text)

omit [Float64 F] in
omit [Float64 F] in
theorem trackedKeys_callsOf_subset (calls : List (Call F)) :
    trackedKeys tools config (callsOf workspaceKey calls) ⊆ trackedKeys tools config calls :=
  (List.filter_sublist.filterMap _).subset

omit [Float64 F] in
theorem Fits.callsOf (hfits : Fits tools config calls) (workspaceKey : Text) :
    Fits tools config (callsOf workspaceKey calls) := by
  refine le_trans (Int.ofNat_le.mpr ?_) hfits
  exact ((List.nodup_dedup _).subperm fun key hkey => List.mem_dedup.mpr
    (trackedKeys_callsOf_subset workspaceKey calls (List.mem_dedup.mp hkey))).length_le

omit [Float64 F] in
theorem ofWorkspace_ofWorkspace (contexts : Dict Text (CompressedContext F)) :
    ofWorkspace workspaceKey (ofWorkspace workspaceKey contexts) =
      ofWorkspace workspaceKey contexts :=
  Dict.ext (List.filter_eq_self.mpr fun _ hentry => (List.mem_filter.mp hentry).2)

/-- A tracker and one that has seen the calls of a workspace only. -/
structure Purged (tools : TextTools) (config : ContextTrackerConfig F) (workspaceKey : Text)
    (calls : List (Call F)) (tracker purged : Tracker F) : Prop where
  comesFrom : ComesFrom tools config calls tracker.contexts
  purgedFrom : ComesFrom tools config (callsOf workspaceKey calls) purged.contexts
  contexts : ofWorkspace workspaceKey tracker.contexts = purged.contexts

section

variable {workspaceKey : Text} {calls : List (Call F)} (hfits : Fits tools config calls)
  (howns : Owns tools config workspaceKey calls)
variable {tracker purged : Tracker F}

include hfits howns in
/-- A call of another workspace. -/
theorem Purged.other (hpurged : Purged tools config workspaceKey calls tracker purged)
    {call : Call F} (hmem : call ∈ calls) (hother : call.workspaceKey ≠ workspaceKey) :
    Purged tools config workspaceKey calls (step tools config tracker call).1 purged := by
  refine ⟨hpurged.comesFrom.step hmem, hpurged.purgedFrom, hpurged.contexts ▸ ?_⟩
  cases call with
  | query query currentTurn other now =>
      rw [step, analyzeQuery]
      split_ifs <;> rfl
  | track compression now =>
      rw [(step_track hpurged.comesFrom hfits hmem).2]
      split_ifs with htracked
      · have hvalue : decide ((compression.context now).workspaceKey = workspaceKey) = false :=
          decide_eq_false hother
        rw [ofWorkspace, Dict.filter_set, hvalue, if_neg Bool.false_ne_true]
        · rfl
        intro found hfound
        rw [hvalue]
        refine decide_eq_false fun hsame => hother ?_
        exact howns _ (hsame ▸ hpurged.comesFrom _ _ hfound) _
          ⟨compression, now, hmem, htracked, rfl, rfl⟩
      · rfl

include hfits howns in
/-- A call of the workspace. -/
theorem Purged.own (hpurged : Purged tools config workspaceKey calls tracker purged) {call : Call F}
    (hmem : call ∈ calls) (hown : call.workspaceKey = workspaceKey) :
    (step tools config tracker call).2 = (step tools config purged call).2 ∧
      Purged tools config workspaceKey calls (step tools config tracker call).1
        (step tools config purged call).1 := by
  have hmemOwn : call ∈ callsOf workspaceKey calls :=
    List.mem_filter.mpr ⟨hmem, decide_eq_true hown⟩
  cases call with
  | query query currentTurn other now =>
      obtain rfl : other = workspaceKey := hown
      have hshown : ofWorkspace other tracker.contexts = ofWorkspace other purged.contexts := by
        rw [← hpurged.contexts, ofWorkspace_ofWorkspace]
      rw [step, step, analyzeQuery, analyzeQuery, hshown]
      split_ifs
      · exact ⟨rfl, hpurged⟩
      · exact ⟨rfl, hpurged.comesFrom, hpurged.purgedFrom, hpurged.contexts⟩
  | track compression now =>
      obtain ⟨houtcome, hcontexts⟩ := step_track hpurged.comesFrom hfits hmem
      obtain ⟨houtcome', hcontexts'⟩ :=
        step_track hpurged.purgedFrom (hfits.callsOf workspaceKey) hmemOwn
      refine ⟨houtcome.trans houtcome'.symm, hpurged.comesFrom.step hmem,
        hpurged.purgedFrom.step hmemOwn, ?_⟩
      rw [hcontexts, hcontexts', ← hpurged.contexts]
      split_ifs with htracked
      · have hvalue : decide ((compression.context now).workspaceKey = workspaceKey) = true :=
          decide_eq_true hown
        rw [ofWorkspace, Dict.filter_set, hvalue, if_pos rfl]
        · rfl
        intro found hfound
        rw [hvalue]
        exact decide_eq_true (howns _ ⟨compression, now, hmem, htracked, hown, rfl⟩ _
          (hpurged.comesFrom _ _ hfound))
      · rfl

include hfits howns in
/-- The outcomes are those of a run without the other workspaces. -/
theorem Purged.outcomesOf (hpurged : Purged tools config workspaceKey calls tracker purged)
    {more : List (Call F)} (hmore : more ⊆ calls) :
    outcomesOf tools config workspaceKey tracker more =
      outcomesOf tools config workspaceKey purged (callsOf workspaceKey more) := by
  induction more generalizing tracker purged with
  | nil => rfl
  | cons call more ih =>
      obtain ⟨hcall, hmore⟩ := List.cons_subset.mp hmore
      by_cases hown : call.workspaceKey = workspaceKey
      · obtain ⟨houtcome, hnext⟩ := hpurged.own hfits howns hcall hown
        have hcalls : callsOf workspaceKey (call :: more) = call :: callsOf workspaceKey more :=
          List.filter_cons_of_pos (decide_eq_true hown)
        rw [hcalls, ContextTracker.outcomesOf, ContextTracker.outcomesOf, if_pos hown, if_pos hown,
          houtcome, ih hnext hmore]
      · have hcalls : callsOf workspaceKey (call :: more) = callsOf workspaceKey more :=
          List.filter_cons_of_neg (by simpa using hown)
        rw [hcalls, ContextTracker.outcomesOf, if_neg hown]
        exact ih (hpurged.other hfits howns hcall hown) hmore

end

omit [Float64 F] in
theorem purged_empty (calls : List (Call F)) :
    Purged tools config workspaceKey calls .empty .empty where
  comesFrom := fun _ _ hget => nomatch hget
  purgedFrom := fun _ _ hget => nomatch hget
  contexts := rfl

/-- Two runs that agree on the calls of a workspace agree on its outcomes, if nothing is evicted
and no other workspace tracks one of its hashes.  In every run a query is answered with hashes of
its own workspace, and the order list holds the keys of the map. -/
theorem workspaces_isolated (tools : TextTools) (config : ContextTrackerConfig F)
    (workspaceKey : Text) :
    (∀ calls others : List (Call F),
      callsOf workspaceKey calls = callsOf workspaceKey others →
      Fits tools config calls → Fits tools config others →
      Owns tools config workspaceKey calls → Owns tools config workspaceKey others →
        outcomesOf tools config workspaceKey .empty calls =
          outcomesOf tools config workspaceKey .empty others) ∧
    (∀ (calls : List (Call F)) query currentTurn now recommendations,
      (step tools config (after tools config .empty calls)
          (.query query currentTurn workspaceKey now)).2 = .recommended recommendations →
        ∀ recommendation ∈ recommendations,
          Tracks tools config calls workspaceKey recommendation.hashKey) ∧
    ∀ calls : List (Call F),
      (after tools config .empty calls).turnOrder.Nodup ∧
        (after tools config .empty calls).contexts.keys.Nodup ∧
          ∀ key, key ∈ (after tools config .empty calls).turnOrder ↔
            key ∈ (after tools config .empty calls).contexts.keys := by
  refine ⟨fun calls others hsame hfits hfits' howns howns' => ?_,
    fun calls query currentTurn now recommendations houtcome recommendation hmem => ?_,
    fun calls => ?_⟩
  · rw [(purged_empty workspaceKey calls).outcomesOf hfits howns (List.Subset.refl _), hsame,
      (purged_empty workspaceKey others).outcomesOf hfits' howns' (List.Subset.refl _)]
  · obtain ⟨context, hget, rfl⟩ := workspace_of_recommended houtcome hmem
    have hempty : ComesFrom tools config calls (Tracker.empty : Tracker F).contexts :=
      fun _ _ hget => nomatch hget
    exact after_comesFrom hempty (List.Subset.refl _) _ _ hget
  · obtain ⟨hnodup, hkeys⟩ := @after_ordered _ _ tools config _ empty_ordered calls
    exact ⟨hnodup, Dict.nodup _, hkeys⟩

/-! ## Contents that are shared -/

def listing (hashKey workspaceKey : String) : Compression where
  hashKey := text hashKey
  turnNumber := 1
  toolName := some (text "Bash")
  originalCount := 100
  compressedCount := 10
  workspaceKey := text workspaceKey
  queryContext := []
  sampleContent := text "auth login"

def defaultConfig : ContextTrackerConfig ℚ where
  enabled := true
  maxTrackedContexts := 100
  relevanceThreshold := 3 / 10
  maxContextAgeSeconds := 300
  proactiveExpansion := true
  maxProactiveExpansions := 2

def ownCalls : List (Call ℚ) :=
  [.track (listing "abc123" "mine") 0, .query (text "auth") (some 2) (text "mine") 60]

/-- The same calls with one of another workspace in between. -/
def disturbedCalls (hashKey : String) : List (Call ℚ) :=
  [.track (listing "abc123" "mine") 0, .track (listing hashKey "yours") 30,
    .query (text "auth") (some 2) (text "mine") 60]

theorem workspaces_isolated_two :
    outcomesOf asciiTools defaultConfig (text "mine") .empty ownCalls =
      outcomesOf asciiTools defaultConfig (text "mine") .empty (disturbedCalls "def456") := by
  refine (workspaces_isolated asciiTools defaultConfig (text "mine")).1 ownCalls
    (disturbedCalls "def456") rfl ?_ ?_ ?_ ?_
  · unfold Fits
    decide +kernel
  · unfold Fits
    decide +kernel
  · rintro key - other ⟨compression, now, hmem, -, rfl, -⟩
    simp only [ownCalls, List.mem_cons, List.not_mem_nil, or_false, reduceCtorEq,
      Call.track.injEq] at hmem
    rw [hmem.1]
    rfl
  · rintro key ⟨mine, before, hmine, -, hworkspace, rfl⟩ other ⟨yours, now, hyours, -, rfl, hkey⟩
    simp only [disturbedCalls, List.mem_cons, List.not_mem_nil, or_false, reduceCtorEq,
      Call.track.injEq] at hmine hyours
    rcases hmine with ⟨rfl, -⟩ | ⟨rfl, -⟩
    · rcases hyours with ⟨rfl, -⟩ | ⟨rfl, -⟩
      · rfl
      · exact absurd hkey (by decide)
    · exact absurd hworkspace (by decide)

/-- Whoever tracks a hash last owns it: the first workspace does not get it any more. -/
theorem shared_hash_lost :
    callsOf (text "mine") ownCalls = callsOf (text "mine") (disturbedCalls "abc123") ∧
      Fits asciiTools defaultConfig ownCalls ∧
      Fits asciiTools defaultConfig (disturbedCalls "abc123") ∧
        outcomesOf asciiTools defaultConfig (text "mine") .empty ownCalls ≠
          outcomesOf asciiTools defaultConfig (text "mine") .empty (disturbedCalls "abc123") := by
  refine ⟨rfl, ?_, ?_, ?_⟩
  · unfold Fits
    decide +kernel
  · unfold Fits
    decide +kernel
  · decide +kernel

end Legroom.ContextTracker
