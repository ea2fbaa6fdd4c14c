import Mathlib.Algebra.Order.Field.Basic
import Mathlib.Tactic.Linarith
import Mathlib.Tactic.Ring

/-!
# Token buckets

A bucket fills at a steady speed up to its capacity, and what is asked for is granted if it is
there.  The level is brought up to date only when the bucket is asked, which makes no
difference to any later level.
-/

namespace Legroom.TokenBucket

structure Bucket (K : Type*) where
  level : K
  time : K

section

variable {K : Type*} [Field K] [LinearOrder K] (capacity speed : K)

def levelAt (bucket : Bucket K) (now : K) : K :=
  min capacity (bucket.level + max 0 (now - bucket.time) * speed)

/-- The bucket after an amount was asked for. -/
def draw (bucket : Bucket K) (now amount : K) : Bucket K :=
  let level := levelAt capacity speed bucket now
  ⟨if amount ≤ level then level - amount else level, now⟩

/-- The levels that are found when one amount after the other is asked for. -/
def levels : Bucket K → List (K × K) → List K
  | _, [] => []
  | bucket, (now, amount) :: asks =>
      levelAt capacity speed bucket now :: levels (draw capacity speed bucket now amount) asks

/-- What is granted from `start` to `stop`. -/
def granted (start stop : K) : Bucket K → List (K × K) → K
  | _, [] => 0
  | bucket, (now, amount) :: asks =>
      (if start ≤ now ∧ now ≤ stop ∧ amount ≤ levelAt capacity speed bucket now then amount
        else 0) + granted start stop (draw capacity speed bucket now amount) asks

/-- Two buckets that are at one level from some time on. -/
def Alike (now : K) (left right : Bucket K) : Prop :=
  ∀ later, now ≤ later → levelAt capacity speed left later = levelAt capacity speed right later

end

section

variable {K : Type*} [Field K] [LinearOrder K] {capacity speed : K} {now later amount : K}
  {left right bucket : Bucket K}

theorem levelAt_le_capacity : levelAt capacity speed bucket now ≤ capacity := min_le_left _ _

theorem Alike.mono (halike : Alike capacity speed now left right) (hlater : now ≤ later) :
    Alike capacity speed later left right := fun after hafter => halike after (hlater.trans hafter)

theorem draw_congr (halike : Alike capacity speed now left right) (hlater : now ≤ later)
    (amount : K) :
    draw capacity speed left later amount = draw capacity speed right later amount := by
  rw [draw, draw, halike later hlater]

variable [IsStrictOrderedRing K]

/-- Bringing the level up to date changes no later level. -/
theorem levelAt_settled (hspeed : 0 ≤ speed) (htime : bucket.time ≤ now) (hlater : now ≤ later) :
    levelAt capacity speed ⟨levelAt capacity speed bucket now, now⟩ later =
      levelAt capacity speed bucket later := by
  have hfirst : max 0 (now - bucket.time) = now - bucket.time :=
    max_eq_right (sub_nonneg.mpr htime)
  have hsecond : max 0 (later - now) = later - now := max_eq_right (sub_nonneg.mpr hlater)
  have hboth : max 0 (later - bucket.time) = later - bucket.time :=
    max_eq_right (sub_nonneg.mpr (htime.trans hlater))
  have hmore : 0 ≤ (later - now) * speed := mul_nonneg (sub_nonneg.mpr hlater) hspeed
  have hsum : bucket.level + (later - bucket.time) * speed =
      bucket.level + (now - bucket.time) * speed + (later - now) * speed := by ring
  simp only [levelAt, hfirst, hsecond, hboth, hsum]
  rw [← min_add_add_right, ← min_assoc, min_eq_left (le_add_of_nonneg_right hmore)]

/-- What is refused changes no later level. -/
theorem alike_draw_of_lt (hspeed : 0 ≤ speed) (htime : bucket.time ≤ now)
    (hrefused : levelAt capacity speed bucket now < amount) :
    Alike capacity speed now (draw capacity speed bucket now amount) bucket := by
  intro later hlater
  rw [draw, if_neg (not_le.mpr hrefused)]
  exact levelAt_settled hspeed htime hlater

/-- A full bucket stays full. -/
theorem levelAt_full (hspeed : 0 ≤ speed) (hfull : levelAt capacity speed bucket now = capacity)
    (hlater : now ≤ later) : levelAt capacity speed bucket later = capacity := by
  rw [levelAt, min_eq_left_iff] at hfull ⊢
  have hmax : max 0 (now - bucket.time) ≤ max 0 (later - bucket.time) :=
    max_le_max le_rfl (sub_le_sub_right hlater _)
  have hmore := mul_le_mul_of_nonneg_right hmax hspeed
  linarith

theorem levelAt_nonneg (now : K) (hcapacity : 0 ≤ capacity) (hspeed : 0 ≤ speed)
    (hlevel : 0 ≤ bucket.level) : 0 ≤ levelAt capacity speed bucket now :=
  le_min hcapacity (add_nonneg hlevel (mul_nonneg (le_max_left _ _) hspeed))

theorem draw_level_nonneg (now amount : K) (hcapacity : 0 ≤ capacity) (hspeed : 0 ≤ speed)
    (hlevel : 0 ≤ bucket.level) : 0 ≤ (draw capacity speed bucket now amount).level := by
  have hnonneg := levelAt_nonneg now hcapacity hspeed hlevel
  rw [draw]
  dsimp only
  split_ifs with hgranted
  · exact sub_nonneg.mpr hgranted
  · exact hnonneg

theorem draw_level_le (hamount : 0 ≤ amount) :
    (draw capacity speed bucket now amount).level ≤ capacity := by
  have hle : levelAt capacity speed bucket now ≤ capacity := levelAt_le_capacity
  rw [draw]
  dsimp only
  split_ifs
  · linarith
  · exact hle

/-! ## Windows -/

variable {start stop : K} {asks : List (K × K)}

/-- The times do not decrease, and no amount is negative. -/
def Ordered (now : K) : List (K × K) → Prop
  | [] => True
  | ask :: asks => now ≤ ask.1 ∧ 0 ≤ ask.2 ∧ Ordered ask.1 asks

omit [IsStrictOrderedRing K] in
theorem granted_after (hasks : Ordered bucket.time asks) (hstop : stop < bucket.time) :
    granted capacity speed start stop bucket asks = 0 := by
  induction asks generalizing bucket with
  | nil => rfl
  | cons ask asks ih =>
      have hlate : stop < ask.1 := hstop.trans_le hasks.1
      rw [granted, if_neg fun hinside => absurd hinside.2.1 (not_le.mpr hlate), zero_add]
      exact ih hasks.2.2 hlate

/-- What is granted is taken from the level that was found. -/
theorem granted_add_level_le (capacity speed : K) (bucket : Bucket K) (now : K) (inside : Prop)
    [Decidable inside] (hamount : 0 ≤ amount) :
    (if inside ∧ amount ≤ levelAt capacity speed bucket now then amount else 0) +
      (draw capacity speed bucket now amount).level ≤ levelAt capacity speed bucket now := by
  rw [draw]
  dsimp only
  by_cases hfits : amount ≤ levelAt capacity speed bucket now
  · rw [if_pos hfits]
    split_ifs
    · linarith
    · linarith
  · rw [if_neg hfits, if_neg fun hboth => hfits hboth.2, zero_add]

/-- From some time inside a window on no more is granted than what is there and what comes in. -/
theorem granted_within (start : K) (hcapacity : 0 ≤ capacity) (hspeed : 0 ≤ speed)
    (hlevel : 0 ≤ bucket.level) (hasks : Ordered bucket.time asks) (hstop : bucket.time ≤ stop) :
    granted capacity speed start stop bucket asks ≤
      bucket.level + (stop - bucket.time) * speed := by
  induction asks generalizing bucket with
  | nil => exact add_nonneg hlevel (mul_nonneg (sub_nonneg.mpr hstop) hspeed)
  | cons ask asks ih =>
      obtain ⟨hnow, hamount, hrest⟩ := hasks
      rw [granted]
      by_cases hinside : ask.1 ≤ stop
      · have hmore := ih (draw_level_nonneg ask.1 ask.2 hcapacity hspeed hlevel) hrest
          hinside
        have hfound : levelAt capacity speed bucket ask.1 ≤
            bucket.level + (ask.1 - bucket.time) * speed := by
          rw [levelAt, max_eq_right (sub_nonneg.mpr hnow)]
          exact min_le_right _ _
        have htaken := granted_add_level_le capacity speed bucket ask.1
          (start ≤ ask.1 ∧ ask.1 ≤ stop) hamount
        have hsum : bucket.level + (stop - bucket.time) * speed =
            bucket.level + (ask.1 - bucket.time) * speed + (stop - ask.1) * speed := by ring
        rw [hsum]
        simp only [and_assoc] at htaken
        have htime : (draw capacity speed bucket ask.1 ask.2).time = ask.1 := rfl
        rw [htime] at hmore
        linarith
      · have hafter : granted capacity speed start stop
            (draw capacity speed bucket ask.1 ask.2) asks = 0 :=
          granted_after hrest (not_le.mp hinside)
        rw [if_neg fun hboth => hinside hboth.2.1, hafter, zero_add]
        exact add_nonneg hlevel (mul_nonneg (sub_nonneg.mpr hstop) hspeed)

/-- In no window more is granted than the capacity and what comes in. -/
theorem granted_le (hcapacity : 0 ≤ capacity) (hspeed : 0 ≤ speed) (hlevel : 0 ≤ bucket.level)
    (hasks : Ordered bucket.time asks) (hstop : start ≤ stop) :
    granted capacity speed start stop bucket asks ≤ capacity + (stop - start) * speed := by
  have hwindow : 0 ≤ (stop - start) * speed := mul_nonneg (sub_nonneg.mpr hstop) hspeed
  induction asks generalizing bucket with
  | nil => exact add_nonneg hcapacity hwindow
  | cons ask asks ih =>
      obtain ⟨hnow, hamount, hrest⟩ := hasks
      have hnext := draw_level_nonneg ask.1 ask.2 hcapacity hspeed hlevel
      rw [granted]
      by_cases hearly : ask.1 < start
      · rw [if_neg fun hboth => absurd hboth.1 (not_le.mpr hearly), zero_add]
        exact ih hnext hrest
      by_cases hlate : stop < ask.1
      · have hafter : granted capacity speed start stop
            (draw capacity speed bucket ask.1 ask.2) asks = 0 :=
          granted_after hrest hlate
        rw [if_neg fun hboth => absurd hboth.2.1 (not_le.mpr hlate), hafter, zero_add]
        exact add_nonneg hcapacity hwindow
      · have hmore := granted_within start hcapacity hspeed hnext hrest (not_lt.mp hlate)
        have htaken := granted_add_level_le capacity speed bucket ask.1
          (start ≤ ask.1 ∧ ask.1 ≤ stop) hamount
        have hfound : levelAt capacity speed bucket ask.1 ≤ capacity := levelAt_le_capacity
        have hshorter : (stop - ask.1) * speed ≤ (stop - start) * speed :=
          mul_le_mul_of_nonneg_right (sub_le_sub_left (not_lt.mp hearly) stop) hspeed
        simp only [and_assoc] at htaken
        have htime : (draw capacity speed bucket ask.1 ask.2).time = ask.1 := rfl
        rw [htime] at hmore
        linarith

end

end Legroom.TokenBucket
