import Legroom.Proxy.SavingsTracker

/-!
# The compacted history

A long history is sampled for a response: all recent points, and older ones at even distances.
Of the points of one second only the first one is shown.
-/

namespace Legroom.SavingsTracker

/-! ## Sampling -/

section

variable {α : Type*}

/-- `items[-count:]` -/
def lastItems (count : ℕ) (items : List α) : List α :=
  if count = 0 then items else items.drop (items.length - count)

/-- `items[:-count]` -/
def withoutLast (count : ℕ) (items : List α) : List α :=
  if count = 0 then [] else items.take (items.length - count)

/-- The position of a sample among the older points. -/
def samplePosition (slots length index : ℕ) : ℕ :=
  if slots = 1 then 0 else (length - 1) * index / (slots - 1)

def sampledOlder (slots : ℕ) (older : List α) : List α :=
  ((List.range slots).map (samplePosition slots older.length)).filterMap (older[·]?)

end

def recentPoints (limit : ℕ) : ℕ := min (max (limit / 3) 50) (limit - 1)

/-- The first point of every second that was not seen. -/
def freshPoints : List Second → List HistoryPoint → List HistoryPoint
  | _, [] => []
  | seen, point :: points =>
      if point.timestamp ∈ seen then freshPoints seen points
      else point :: freshPoints (point.timestamp :: seen) points

/-- `_compact_history` -/
def compactHistory (limit : ℕ) (history : List HistoryPoint) : List HistoryPoint :=
  if history.length ≤ limit then history
  else
    let recent := lastItems (recentPoints limit) history
    let older := withoutLast (recentPoints limit) history
    let olderSlots : ℤ := limit - recent.length
    if olderSlots ≤ 0 ∨ older.isEmpty then lastItems limit recent
    else freshPoints [] (sampledOlder olderSlots.toNat older ++ recent)

/-! ## What is shown -/

section

variable {α : Type*}

theorem filterMap_getElem?_sublist {positions : List ℕ} (hpositions : positions.Pairwise (· < ·))
    (items : List α) : (positions.filterMap (items[·]?)).Sublist items := by
  suffices hfrom : ∀ start, (∀ position ∈ positions, start ≤ position) →
      (positions.filterMap (items[·]?)).Sublist (items.drop start) from
    hfrom 0 fun position _ => Nat.zero_le position
  induction positions with
  | nil => exact fun start _ => List.nil_sublist _
  | cons position positions ih =>
      intro start hstart
      obtain ⟨hlater, hrest⟩ := List.pairwise_cons.mp hpositions
      have hbehind := ih hrest (position + 1) hlater
      have hdrop : (items.drop position).Sublist (items.drop start) := by
        rw [← Nat.add_sub_cancel' (hstart position List.mem_cons_self), ← List.drop_drop]
        exact List.drop_sublist _ _
      cases hitem : items[position]? with
      | none =>
          rw [List.filterMap_cons_none hitem]
          exact hbehind.trans ((List.drop_sublist_drop_left items (Nat.le_succ position)).trans hdrop)
      | some item =>
          rw [List.filterMap_cons_some hitem]
          obtain ⟨hbound, rfl⟩ := List.getElem?_eq_some_iff.mp hitem
          rw [List.drop_eq_getElem_cons hbound] at hdrop
          exact (hbehind.cons_cons _).trans hdrop

variable {slots : ℕ} {older : List α} (hslots : 0 < slots) (hlength : slots ≤ older.length)

include hlength in
theorem samplePosition_lt {index other : ℕ} (hindex : index < other) (hother : other < slots) :
    samplePosition slots older.length index < samplePosition slots older.length other := by
  have hmany : slots ≠ 1 := by omega
  have hpositive : 0 < slots - 1 := by omega
  rw [samplePosition, samplePosition, if_neg hmany, if_neg hmany]
  -- From one index to the next the product grows by at least the divisor.
  have hgrows : (older.length - 1) * index + (slots - 1) ≤ (older.length - 1) * other := by
    calc (older.length - 1) * index + (slots - 1)
        ≤ (older.length - 1) * index + (older.length - 1) := by omega
      _ = (older.length - 1) * (index + 1) := (Nat.mul_succ _ _).symm
      _ ≤ (older.length - 1) * other := Nat.mul_le_mul_left _ hindex
  have hdiv := Nat.div_le_div_right (c := slots - 1) hgrows
  rw [Nat.add_div_right _ hpositive] at hdiv
  exact hdiv

include hlength in
theorem sampledOlder_sublist : (sampledOlder slots older).Sublist older := by
  refine filterMap_getElem?_sublist ?_ older
  rw [List.pairwise_map]
  refine List.Pairwise.imp_of_mem ?_ (List.pairwise_lt_range (n := slots))
  intro index other _ hother hlt
  exact samplePosition_lt hlength hlt (List.mem_range.mp hother)

theorem length_sampledOlder_le : (sampledOlder slots older).length ≤ slots := by
  refine (List.length_filterMap_le _ _).trans ?_
  rw [List.length_map, List.length_range]

include hslots in
/-- The first sample is the first of the older points. -/
theorem head?_sampledOlder (hne : older ≠ []) : (sampledOlder slots older).head? = older.head? := by
  obtain ⟨first, rest, rfl⟩ := List.exists_cons_of_ne_nil hne
  obtain ⟨more, rfl⟩ := Nat.exists_eq_succ_of_ne_zero hslots.ne'
  have hfirst : samplePosition (more + 1) (first :: rest).length 0 = 0 := by
    rw [samplePosition, Nat.mul_zero, Nat.zero_div]
    split_ifs <;> rfl
  rw [sampledOlder, List.range_succ_eq_map, List.map_cons, hfirst]
  rfl

end

theorem freshPoints_sublist (seen : List Second) (points : List HistoryPoint) :
    (freshPoints seen points).Sublist points := by
  induction points generalizing seen with
  | nil => exact .refl _
  | cons point points ih =>
      rw [freshPoints]
      split_ifs
      · exact (ih seen).cons point
      · exact (ih _).cons_cons point

/-- A point is shown if it is the first one of its second. -/
theorem mem_freshPoints {seen : List Second} {points : List HistoryPoint} {point : HistoryPoint} :
    point ∈ freshPoints seen points ↔ point.timestamp ∉ seen ∧
      points.find? (·.timestamp = point.timestamp) = some point := by
  induction points generalizing seen with
  | nil => exact iff_of_false List.not_mem_nil fun hboth => nomatch hboth.2
  | cons first points ih =>
      rw [freshPoints, List.find?_cons]
      by_cases hsame : first.timestamp = point.timestamp
      · simp only [hsame, decide_true]
        by_cases hseen : point.timestamp ∈ seen
        · rw [if_pos hseen, ih]
          exact iff_of_false (fun hboth => hboth.1 hseen) fun hboth => hboth.1 hseen
        · rw [if_neg hseen, List.mem_cons, ih, Option.some_inj, eq_comm (a := point)]
          simp [hseen]
      · simp only [hsame, decide_false]
        have hne : point ≠ first := fun heq => hsame (congrArg HistoryPoint.timestamp heq).symm
        split_ifs with hseen
        · exact ih
        · rw [List.mem_cons, or_iff_right hne, ih, List.mem_cons, not_or]
          exact and_congr_left' (and_iff_right (Ne.symm hsame))

/-! ## Endpoints -/

/-- The history has its ends in what is shown of it. -/
structure KeepsEndpoints (limit : ℕ) (history : List HistoryPoint) : Prop where
  sublist : (compactHistory limit history).Sublist history
  length : (compactHistory limit history).length ≤ limit
  last : ∀ last, history.getLast? = some last → last ∈ compactHistory limit history
  oldest : 2 ≤ limit → ∀ first, history.head? = some first → first ∈ compactHistory limit history

/-- The positions that are picked from a long history.  They depend on its length only. -/
def pickedPositions (limit length : ℕ) : List ℕ :=
  (List.range (limit - recentPoints limit)).map
      (samplePosition (limit - recentPoints limit) (length - recentPoints limit)) ++
    List.range' (length - recentPoints limit) (recentPoints limit)

/-- The first point of the last second that is picked is the last point. -/
def LastIsFirstPicked (limit : ℕ) (history : List HistoryPoint) : Prop :=
  ∀ last, history.getLast? = some last →
    ((pickedPositions limit history.length).filterMap (history[·]?)).find?
      (·.timestamp = last.timestamp) = some last

theorem filterMap_range' {α : Type*} {items : List α} {start count : ℕ}
    (hlength : start + count = items.length) :
    (List.range' start count).filterMap (items[·]?) = items.drop start := by
  induction count generalizing start with
  | zero =>
      rw [← Nat.add_zero start, hlength, List.drop_length]
      rfl
  | succ count ih =>
      have hbound : start < items.length := by omega
      rw [List.range'_succ, List.filterMap_cons_some (List.getElem?_eq_getElem hbound),
        ih (by omega), List.drop_eq_getElem_cons hbound]

section

variable {limit : ℕ} {history : List HistoryPoint} (hlimit : 2 ≤ limit)
  (hlong : limit < history.length)

include hlimit in
theorem recentPoints_bounds : 0 < recentPoints limit ∧ recentPoints limit < limit := by
  rw [recentPoints]
  omega

include hlimit hlong in
theorem length_withoutLast : (withoutLast (recentPoints limit) history).length =
    history.length - recentPoints limit := by
  obtain ⟨hpositive, hbound⟩ := recentPoints_bounds hlimit
  rw [withoutLast, if_neg hpositive.ne', List.length_take]
  omega

include hlimit hlong in
theorem filterMap_pickedPositions :
    (pickedPositions limit history.length).filterMap (history[·]?) =
      sampledOlder (limit - recentPoints limit) (withoutLast (recentPoints limit) history) ++
        lastItems (recentPoints limit) history := by
  obtain ⟨hpositive, hbound⟩ := recentPoints_bounds hlimit
  have holder := length_withoutLast hlimit hlong
  rw [pickedPositions, List.filterMap_append, sampledOlder, holder, lastItems,
    if_neg hpositive.ne', filterMap_range' (by omega)]
  congr 1
  refine List.filterMap_congr fun position hposition => ?_
  obtain ⟨index, hindex, rfl⟩ := List.mem_map.mp hposition
  have hlast : samplePosition (limit - recentPoints limit) (history.length - recentPoints limit)
      index < history.length - recentPoints limit := by
    rw [samplePosition]
    split_ifs with hone
    · omega
    · have hrange := List.mem_range.mp hindex
      refine lt_of_le_of_lt (Nat.div_le_of_le_mul ?_)
        (Nat.sub_lt (by omega : 0 < history.length - recentPoints limit) Nat.one_pos)
      rw [Nat.mul_comm]
      exact Nat.mul_le_mul_right _ (by omega)
  rw [withoutLast, if_neg hpositive.ne', List.getElem?_take_of_lt hlast]

include hlimit hlong in
/-- What is shown of a long history. -/
theorem compactHistory_long : compactHistory limit history =
    freshPoints [] ((pickedPositions limit history.length).filterMap (history[·]?)) := by
  obtain ⟨hpositive, hbound⟩ := recentPoints_bounds hlimit
  have holder := length_withoutLast hlimit hlong
  have hrecent : (lastItems (recentPoints limit) history).length = recentPoints limit := by
    rw [lastItems, if_neg hpositive.ne', List.length_drop]
    omega
  rw [compactHistory, if_neg (Nat.not_le.mpr hlong), filterMap_pickedPositions hlimit hlong]
  dsimp only
  rw [if_neg, hrecent]
  · congr 3
    omega
  · rw [hrecent, List.isEmpty_iff, ← List.length_eq_zero_iff, holder]
    omega

end

theorem withoutLast_append_lastItems {α : Type*} (count : ℕ) (items : List α) :
    withoutLast count items ++ lastItems count items = items := by
  rw [withoutLast, lastItems]
  split_ifs
  · rfl
  · exact List.take_append_drop _ _

variable {history : List HistoryPoint}

theorem keepsEndpoints_short {limit : ℕ} (hshort : history.length ≤ limit) :
    KeepsEndpoints limit history := by
  have hall : compactHistory limit history = history := if_pos hshort
  constructor
  · rw [hall]
  · rwa [hall]
  · rw [hall]
    exact fun last hlast => List.mem_of_getLast? hlast
  · rw [hall]
    exact fun _ first hfirst => List.mem_of_head? hfirst

theorem keepsEndpoints_one (hlong : 1 < history.length) : KeepsEndpoints 1 history := by
  have hlast : compactHistory 1 history = history.drop (history.length - 1) := by
    have hslots : ((1 : ℕ) : ℤ) - history.length ≤ 0 := by omega
    rw [compactHistory, if_neg (Nat.not_le.mpr hlong)]
    exact if_pos (.inl hslots)
  constructor
  · rw [hlast]
    exact List.drop_sublist _ _
  · rw [hlast, List.length_drop]
    omega
  · intro last hget
    rw [hlast]
    refine List.mem_of_getElem? (i := 0) ?_
    rw [List.getElem?_drop, Nat.add_zero, ← List.getLast?_eq_getElem?]
    exact hget
  · exact fun htwo => absurd htwo (by decide)

/-- The ends are shown exactly if the last point is not hidden by one of its second. -/
theorem keepsEndpoints_iff {limit : ℕ} (hlimit : 1 ≤ limit) (history : List HistoryPoint) :
    KeepsEndpoints limit history ↔
      history.length ≤ limit ∨ limit = 1 ∨ LastIsFirstPicked limit history := by
  by_cases hshort : history.length ≤ limit
  · exact iff_of_true (keepsEndpoints_short hshort) (.inl hshort)
  have hlong := Nat.lt_of_not_le hshort
  by_cases hone : limit = 1
  · subst hone
    exact iff_of_true (keepsEndpoints_one hlong) (.inr (.inl rfl))
  have htwo : 2 ≤ limit := by omega
  obtain ⟨hpositive, hbound⟩ := recentPoints_bounds htwo
  have hshown := compactHistory_long htwo hlong
  have hpicked := filterMap_pickedPositions htwo hlong
  have holder := length_withoutLast htwo hlong
  have hlast : ∀ last, last ∈ compactHistory limit history ↔
      ((pickedPositions limit history.length).filterMap (history[·]?)).find?
        (·.timestamp = last.timestamp) = some last := by
    intro last
    rw [hshown, mem_freshPoints, and_iff_right List.not_mem_nil]
  rw [or_iff_right hshort, or_iff_right hone]
  constructor
  · exact fun hkeeps last hget => (hlast last).mp (hkeeps.last last hget)
  · intro hfirst
    refine ⟨?_, ?_, fun last hget => (hlast last).mpr (hfirst last hget), fun _ first hget => ?_⟩
    · rw [hshown, hpicked]
      refine (freshPoints_sublist _ _).trans ?_
      nth_rewrite 3 [← withoutLast_append_lastItems (recentPoints limit) history]
      exact (sampledOlder_sublist (by omega)).append_right _
    · rw [hshown, hpicked]
      refine (freshPoints_sublist _ _).length_le.trans ?_
      have hsampled : (sampledOlder (limit - recentPoints limit)
          (withoutLast (recentPoints limit) history)).length ≤ limit - recentPoints limit :=
        length_sampledOlder_le
      rw [List.length_append, lastItems, if_neg hpositive.ne', List.length_drop]
      omega
    · have hne : withoutLast (recentPoints limit) history ≠ [] := by
        rw [Ne, ← List.length_eq_zero_iff, holder]
        omega
      have hhead : ((pickedPositions limit history.length).filterMap (history[·]?)).head? =
          some first := by
        rw [hpicked, List.head?_append, head?_sampledOlder (by omega) hne, ← hget]
        nth_rewrite 3 [← withoutLast_append_lastItems (recentPoints limit) history]
        rw [List.head?_append]
      obtain ⟨rest, hrest⟩ := List.head?_eq_some_iff.mp hhead
      rw [hshown, hrest, freshPoints, if_neg List.not_mem_nil]
      exact List.mem_cons_self

def pointAt (timestamp : Second) (tokens : ℕ) : HistoryPoint :=
  ⟨timestamp, unknownLabel, unknownLabel, ⟨tokens, 0⟩, none, ⟨100 * tokens, 0⟩, none⟩

/-- Three points are shown of four, and the last one is alone in its second. -/
theorem keepsEndpoints_four :
    KeepsEndpoints 3 [pointAt 0 10, pointAt 1 20, pointAt 1 30, pointAt 2 40] := by
  refine (keepsEndpoints_iff (by decide) _).mpr (.inr (.inr ?_))
  rintro last ⟨⟩
  decide

/-- The last two points share a second, and the totals that are shown are not the current ones. -/
theorem last_point_hidden :
    compactHistory 3 [pointAt 0 10, pointAt 1 20, pointAt 2 30, pointAt 2 40] =
        [pointAt 0 10, pointAt 2 30] ∧
      ¬KeepsEndpoints 3 [pointAt 0 10, pointAt 1 20, pointAt 2 30, pointAt 2 40] := by
  have hshown : compactHistory 3 [pointAt 0 10, pointAt 1 20, pointAt 2 30, pointAt 2 40] =
      [pointAt 0 10, pointAt 2 30] := by decide
  refine ⟨hshown, fun hkeeps => ?_⟩
  have hlast := hkeeps.last (pointAt 2 40) rfl
  rw [hshown] at hlast
  revert hlast
  decide

end Legroom.SavingsTracker
