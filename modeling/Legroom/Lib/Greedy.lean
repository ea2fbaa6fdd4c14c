import Mathlib.Data.Finset.Card
import Mathlib.Data.Finset.Insert
import Mathlib.Data.List.Sort
import Mathlib.Tactic.Common

/-!
# Ranks

The first members of a sorted list are those with few others ahead of them, whatever the order
was before it was sorted.
-/

namespace Legroom

variable {α : Type*} [DecidableEq α] (r : α → α → Prop) [DecidableRel r]

/-- How many others are ahead of a value. -/
def rankIn (values : List α) (value : α) : ℕ :=
  values.countP fun other => r other value ∧ other ≠ value

variable {r} {values : List α}

theorem rankIn_perm {others : List α} (hperm : values.Perm others) (value : α) :
    rankIn r values value = rankIn r others value :=
  hperm.countP_eq _

/-- In a sorted list the rank of a value is its place. -/
theorem rankIn_append {front back : List α} {value : α}
    (hsorted : (front ++ value :: back).Pairwise r) (hnodup : (front ++ value :: back).Nodup)
    (hanti : ∀ other ∈ back, r value other → r other value → other = value) :
    rankIn r (front ++ value :: back) value = front.length := by
  obtain ⟨-, hback, hfront⟩ := List.pairwise_append.mp hsorted
  obtain ⟨-, hbackNodup, hdisjoint⟩ := List.nodup_append.mp hnodup
  have hahead : front.countP (fun other => r other value ∧ other ≠ value) = front.length := by
    apply List.countP_eq_length.mpr
    intro other hother
    exact decide_eq_true ⟨hfront other hother value List.mem_cons_self,
      hdisjoint other hother value List.mem_cons_self⟩
  have hbehind : back.countP (fun other => r other value ∧ other ≠ value) = 0 := by
    apply List.countP_eq_zero.mpr
    intro other hother hrank
    obtain ⟨hle, hne⟩ := of_decide_eq_true hrank
    exact hne (hanti other hother ((List.pairwise_cons.mp hback).1 other hother) hle)
  rw [rankIn, List.countP_append, hahead, List.countP_cons_of_neg, hbehind, Nat.add_zero]
  exact fun hself => (of_decide_eq_true hself).2 rfl

omit [DecidableEq α] in
theorem mem_take_append {front back : List α} {value : α} (hvalue : value ∉ front) (count : ℕ) :
    value ∈ (front ++ value :: back).take count ↔ front.length < count := by
  rw [List.take_append, List.mem_append]
  constructor
  · rintro (hfront | hback)
    · exact absurd (List.mem_of_mem_take hfront) hvalue
    · by_contra hle
      rw [Nat.sub_eq_zero_of_le (not_lt.mp hle), List.take_zero] at hback
      exact List.not_mem_nil hback
  · intro hlt
    obtain ⟨room, hroom⟩ := Nat.exists_eq_add_of_lt hlt
    right
    rw [hroom, Nat.add_assoc, Nat.add_sub_cancel_left, List.take_succ_cons]
    exact List.mem_cons_self

/-- A member is among the first of the sorted list if its rank is below their number. -/
theorem mem_take_insertionSort [Std.Total r] [IsTrans α r] (hnodup : values.Nodup)
    (hanti : ∀ left ∈ values, ∀ right ∈ values, r left right → r right left → left = right)
    (count : ℕ) (value : α) :
    value ∈ (values.insertionSort r).take count ↔
      value ∈ values ∧ rankIn r values value < count := by
  have hperm := List.perm_insertionSort r values
  by_cases hvalue : value ∈ values
  · have hsorted := List.pairwise_insertionSort r values
    have hsortedNodup := hperm.nodup_iff.mpr hnodup
    obtain ⟨front, back, hsplit⟩ := List.append_of_mem (hperm.mem_iff.mpr hvalue)
    rw [← rankIn_perm hperm value]
    rw [hsplit] at hperm hsorted hsortedNodup ⊢
    have hfront : value ∉ front := fun hmem =>
      (List.nodup_append.mp hsortedNodup).2.2 value hmem value List.mem_cons_self rfl
    have hback : ∀ other ∈ back, r value other → r other value → other = value := by
      intro other hother hle hge
      have hmem : other ∈ values :=
        hperm.mem_iff.mp (List.mem_append_right front (List.mem_cons_of_mem value hother))
      exact (hanti value hvalue other hmem hle hge).symm
    rw [mem_take_append hfront, rankIn_append hsorted hsortedNodup hback]
    exact (and_iff_right hvalue).symm
  · exact iff_of_false (fun hmem => hvalue (hperm.mem_iff.mp (List.mem_of_mem_take hmem)))
      fun hmem => hvalue hmem.1

theorem rankIn_lt_length [Std.Total r] [IsTrans α r] (hnodup : values.Nodup)
    (hanti : ∀ left ∈ values, ∀ right ∈ values, r left right → r right left → left = right)
    {value : α} (hvalue : value ∈ values) : rankIn r values value < values.length := by
  apply ((mem_take_insertionSort hnodup hanti values.length value).mp _).2
  rw [List.take_of_length_le (List.length_insertionSort r values).le]
  exact (List.mem_insertionSort r).mpr hvalue

end Legroom

/-!
## Greedy choices

Candidates are added to a set one by one, while there is room and if no member has their key.
With the candidate itself as its key, this is a capped union.
-/

namespace Legroom.Greedy

variable {ι κ : Type*} [DecidableEq ι] [DecidableEq κ]

def add (key : ι → κ) (cap : ℕ) (kept : Finset ι) (candidate : ι) : Finset ι :=
  if cap ≤ kept.card ∨ ∃ other ∈ kept, key other = key candidate then kept
  else insert candidate kept

def fill (key : ι → κ) (cap : ℕ) (kept : Finset ι) (candidates : List ι) : Finset ι :=
  candidates.foldl (add key cap) kept

/-- What becomes of a set when candidates are added to it. -/
structure Fills (key : ι → κ) (cap : ℕ) (kept result : Finset ι) (candidates : List ι) :
    Prop where
  subset : kept ⊆ result
  card_le : result.card ≤ max cap kept.card
  mem : ∀ index ∈ result, index ∈ kept ∨ index ∈ candidates
  /-- Nobody has the key of one that was added. -/
  fresh : ∀ index ∈ result, index ∉ kept → ∀ other ∈ result, key other = key index →
    other = index
  /-- If there is room left, every key of a candidate has come in. -/
  complete : result.card < cap → ∀ index ∈ candidates, ∃ other ∈ result, key other = key index

variable {key : ι → κ} {cap : ℕ} {kept : Finset ι} {candidate : ι}

theorem subset_add : kept ⊆ add key cap kept candidate := by
  rw [add]
  split_ifs
  · exact Finset.Subset.refl kept
  · exact Finset.subset_insert candidate kept

theorem card_add_le : (add key cap kept candidate).card ≤ max cap kept.card := by
  rw [add]
  split_ifs with hfull
  · exact le_max_right cap kept.card
  · have hroom : kept.card < cap := not_le.mp fun hcap => hfull (.inl hcap)
    exact (Finset.card_insert_le candidate kept).trans (le_max_of_le_left hroom)

theorem mem_add {index : ι} (hindex : index ∈ add key cap kept candidate) :
    index ∈ kept ∨ index = candidate := by
  rw [add] at hindex
  split_ifs at hindex
  · exact .inl hindex
  · exact (Finset.mem_insert.mp hindex).symm

/-- One that is added brings a key of its own. -/
theorem key_ne_of_mem_add (hcandidate : candidate ∈ add key cap kept candidate)
    (hnot : candidate ∉ kept) : ∀ other ∈ kept, key other ≠ key candidate := by
  rw [add] at hcandidate
  split_ifs at hcandidate with hfull
  · exact absurd hcandidate hnot
  · exact fun other hother hkey => hfull (.inr ⟨other, hother, hkey⟩)

theorem exists_key_add (hroom : kept.card < cap) :
    ∃ other ∈ add key cap kept candidate, key other = key candidate := by
  rw [add]
  split_ifs with hfull
  · exact hfull.resolve_left (not_le.mpr hroom)
  · exact ⟨candidate, Finset.mem_insert_self candidate kept, rfl⟩

theorem fill_cons (candidates : List ι) :
    fill key cap kept (candidate :: candidates) =
      fill key cap (add key cap kept candidate) candidates := rfl

theorem fills_fill (key : ι → κ) (cap : ℕ) (kept : Finset ι) (candidates : List ι) :
    Fills key cap kept (fill key cap kept candidates) candidates := by
  induction candidates generalizing kept with
  | nil =>
      exact ⟨Finset.Subset.refl kept, le_max_right cap kept.card, fun _ => Or.inl,
        fun index hindex hnot => absurd hindex hnot,
        fun _ _ hindex => absurd hindex List.not_mem_nil⟩
  | cons candidate candidates ih =>
      obtain ⟨hsubset, hcard, hmem, hfresh, hcomplete⟩ := ih (add key cap kept candidate)
      rw [fill_cons]
      refine ⟨subset_add.trans hsubset, ?_, fun index hindex => ?_, fun index hindex hnot => ?_,
        fun hroom index hindex => ?_⟩
      · calc _ ≤ max cap (add key cap kept candidate).card := hcard
          _ ≤ max cap kept.card := max_le (le_max_left cap kept.card) card_add_le
      · rcases hmem index hindex with hadded | hlater
        · rcases mem_add hadded with hold | rfl
          · exact .inl hold
          · exact .inr List.mem_cons_self
        · exact .inr (List.mem_cons_of_mem candidate hlater)
      · by_cases hadded : index ∈ add key cap kept candidate
        · obtain rfl := (mem_add hadded).resolve_left hnot
          intro other hother hkey
          by_cases hbefore : other ∈ add key cap kept index
          · rcases mem_add hbefore with hold | rfl
            · exact absurd hkey (key_ne_of_mem_add hadded hnot other hold)
            · rfl
          · exact (hfresh other hother hbefore index hindex hkey.symm).symm
        · exact hfresh index hindex hadded
      · rcases List.mem_cons.mp hindex with rfl | hlater
        · have hbefore : kept.card < cap :=
            (Finset.card_le_card (subset_add.trans hsubset)).trans_lt hroom
          obtain ⟨other, hother, hkey⟩ := @exists_key_add ι κ _ _ key cap kept index hbefore
          exact ⟨other, hsubset hother, hkey⟩
        · exact hcomplete hroom index hlater

/-- A fold whose steps agree with `add` on the candidates is a fill. -/
theorem foldl_eq_fill {σ : Type*} {step : σ → ι → σ} (view : σ → Finset ι) {good : σ → Prop}
    (candidates : List ι)
    (hstep : ∀ state, good state → ∀ index ∈ candidates, good (step state index) ∧
      view (step state index) = add key cap (view state) index)
    {state : σ} (hgood : good state) :
    good (candidates.foldl step state) ∧
      view (candidates.foldl step state) = fill key cap (view state) candidates := by
  induction candidates generalizing state with
  | nil => exact ⟨hgood, rfl⟩
  | cons candidate candidates ih =>
      obtain ⟨hnext, hview⟩ := hstep state hgood candidate List.mem_cons_self
      rw [List.foldl_cons, fill_cons, ← hview]
      exact ih (fun state hgood index hindex =>
        hstep state hgood index (List.mem_cons_of_mem candidate hindex)) hnext

end Legroom.Greedy
