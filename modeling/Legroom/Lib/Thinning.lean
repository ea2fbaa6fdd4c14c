import Mathlib.Data.List.NodupEquivFin
import Mathlib.Data.List.Sort
import Mathlib.Tactic.Common

/-!
# Thinned lists

A list without the entries at some of its places.  What is left keeps its order, and thinning
it again by a window around marked entries removes nothing more.
-/

namespace Legroom

variable {α : Type*}

/-- The entries at the kept places. -/
def thin (kept : ℕ → Bool) (values : List α) : List α :=
  ((List.range values.length).filter kept).filterMap fun index => values[index]?
variable (kept : ℕ → Bool)

theorem thin_cons (value : α) (values : List α) :
    thin kept (value :: values) =
      (if kept 0 then [value] else []) ++ thin (fun index => kept (index + 1)) values := by
  have hrest : ((List.range values.length).map Nat.succ |>.filter kept).filterMap
        (fun index => (value :: values)[index]?) =
      thin (fun index => kept (index + 1)) values := by
    rw [List.filter_map, List.filterMap_map]
    rfl
  rw [thin, List.length_cons, List.range_succ_eq_map, List.filter_cons]
  split_ifs
  · rw [List.filterMap_cons, List.singleton_append, ← hrest]
    rfl
  · rw [hrest, List.nil_append]

theorem thin_sublist (values : List α) : (thin kept values).Sublist values := by
  induction values generalizing kept with
  | nil => exact List.Sublist.refl []
  | cons value values ih =>
      rw [thin_cons]
      split_ifs
      · exact (ih _).cons_cons value
      · exact (ih _).cons value

/-- Entries whose places are all kept are all left. -/
theorem filter_thin {kept : ℕ → Bool} {chosen : α → Bool} {values : List α}
    (hkept : ∀ index value, values[index]? = some value → chosen value = true →
      kept index = true) :
    (thin kept values).filter chosen = values.filter chosen := by
  induction values generalizing kept with
  | nil => rfl
  | cons value values ih =>
      rw [thin_cons, List.filter_append, ih fun index => hkept (index + 1), List.filter_cons]
      have hvalue := hkept 0 value rfl
      split_ifs with hzero hchosen hchosen
      · rw [List.filter_cons_of_pos hchosen, List.filter_nil, List.singleton_append]
      · rw [List.filter_cons_of_neg hchosen, List.filter_nil, List.nil_append]
      · exact absurd (hvalue hchosen) hzero
      · rfl

theorem thin_of_kept {kept : ℕ → Bool} {values : List α}
    (hkept : ∀ index < values.length, kept index = true) : thin kept values = values := by
  have hall := @filter_thin α kept (fun _ => true) values fun index value hvalue _ =>
    hkept index (List.getElem?_eq_some_iff.mp hvalue).1
  rwa [List.filter_true, List.filter_true] at hall

theorem getElem?_filterMap {values : List α} {places : List ℕ}
    (hplaces : ∀ place ∈ places, values[place]?.isSome = true) (index : ℕ) :
    (places.filterMap fun place : ℕ => values[place]?)[index]? =
      places[index]?.bind fun place : ℕ => values[place]? := by
  induction places generalizing index with
  | nil => rfl
  | cons first places ih =>
      obtain ⟨value, hvalue⟩ := Option.isSome_iff_exists.mp (hplaces first List.mem_cons_self)
      rw [List.filterMap_cons_some hvalue]
      cases index with
      | zero => exact hvalue.symm
      | succ index =>
          exact ih (fun place hplace => hplaces place (List.mem_cons_of_mem first hplace)) index

/-- The places of what is left: they are in order, they are kept, and no other is. -/
theorem exists_place (values : List α) :
    ∃ place : ℕ ↪o ℕ, (∀ index, (thin kept values)[index]? = values[place index]?) ∧
      (∀ index < (thin kept values).length, kept (place index) = true) ∧
      ∀ other < values.length, kept other = true →
        ∃ index < (thin kept values).length, place index = other := by
  set chosen := (List.range values.length).filter kept with hchosen
  obtain ⟨place, hplace⟩ := List.sublist_iff_exists_orderEmbedding_getElem?_eq.mp
    (List.filter_sublist : chosen.Sublist (List.range values.length))
  have hthin : thin kept values = chosen.filterMap fun index => values[index]? := rfl
  have hsome : ∀ index ∈ chosen, values[index]?.isSome = true := by
    intro index hindex
    have hrange := List.mem_range.mp (List.mem_of_mem_filter hindex)
    rw [List.getElem?_eq_getElem hrange, Option.isSome_some]
  have hlength : (thin kept values).length = chosen.length := by
    rw [hthin, List.length_filterMap_eq_countP, List.countP_eq_length.mpr hsome]
  refine ⟨place, fun index => ?_, fun index hindex => ?_, fun other hother hkept => ?_⟩
  · rw [hthin, getElem?_filterMap hsome, hplace]
    by_cases hindex : place index < values.length
    · rw [List.getElem?_range hindex, Option.bind_some]
    · rw [List.getElem?_eq_none (by rw [List.length_range]; exact not_lt.mp hindex),
        List.getElem?_eq_none (not_lt.mp hindex), Option.bind_none]
  · rw [hlength] at hindex
    have hmem : chosen[index] ∈ chosen := List.getElem_mem hindex
    have hvalue : chosen[index]? = some (place index) := by
      have hsource := hplace index
      rw [List.getElem?_eq_getElem hindex] at hsource
      obtain ⟨hbound, hvalue⟩ := List.getElem?_eq_some_iff.mp hsource.symm
      rw [List.getElem_range] at hvalue
      rw [List.getElem?_eq_getElem hindex, ← hvalue]
    obtain ⟨_, hvalue⟩ := List.getElem?_eq_some_iff.mp hvalue
    rw [hvalue] at hmem
    exact (List.mem_filter.mp hmem).2
  · have hmem : other ∈ chosen := List.mem_filter.mpr ⟨List.mem_range.mpr hother, hkept⟩
    obtain ⟨index, hindex, hvalue⟩ := List.getElem_of_mem hmem
    refine ⟨index, hlength.symm ▸ hindex, ?_⟩
    have hsource := hplace index
    rw [List.getElem?_eq_getElem hindex, hvalue] at hsource
    obtain ⟨_, hplaced⟩ := List.getElem?_eq_some_iff.mp hsource.symm
    rwa [List.getElem_range] at hplaced

/-! ## Windows -/

/-- An entry in the window of a marked one, or one that is always kept. -/
def nearMarked (window : ℕ) (marked always : α → Bool) (values : List α) (index : ℕ) : Bool :=
  ((List.range values.length).any fun position =>
      values[position]?.any marked && decide (index ≤ position + window) &&
        decide (position ≤ index + window)) ||
    values[index]?.any always

theorem nearMarked_iff (window : ℕ) (marked always : α → Bool) (values : List α) (index : ℕ) :
    nearMarked window marked always values index = true ↔
      (∃ position, values[position]?.any marked = true ∧ index ≤ position + window ∧
        position ≤ index + window) ∨ values[index]?.any always = true := by
  rw [nearMarked, Bool.or_eq_true, List.any_eq_true]
  refine or_congr_left ⟨fun ⟨position, _, hnear⟩ => ⟨position, ?_⟩, fun ⟨position, hnear⟩ =>
    ⟨position, List.mem_range.mpr ?_, ?_⟩⟩
  · rwa [Bool.and_eq_true, Bool.and_eq_true, decide_eq_true_eq, decide_eq_true_eq,
      and_assoc] at hnear
  · by_contra hbound
    rw [List.getElem?_eq_none (not_lt.mp hbound)] at hnear
    exact Bool.noConfusion hnear.1
  · rwa [Bool.and_eq_true, Bool.and_eq_true, decide_eq_true_eq, decide_eq_true_eq, and_assoc]

/-- Entries do not move away from each other, so what was near a marked one still is. -/
theorem thin_nearMarked (window : ℕ) (marked always : α → Bool) (values : List α) :
    let once := thin (nearMarked window marked always values) values
    thin (nearMarked window marked always once) once = once := by
  intro once
  obtain ⟨place, hplace, hkept, hfound⟩ :=
    exists_place (nearMarked window marked always values) values
  apply thin_of_kept
  intro index hindex
  have hnear := (nearMarked_iff ..).mp (hkept index hindex)
  rw [nearMarked_iff]
  rcases hnear with ⟨position, hmarked, hafter, hbefore⟩ | halways
  · left
    have hposition : position < values.length := by
      by_contra hbound
      rw [List.getElem?_eq_none (not_lt.mp hbound)] at hmarked
      exact Bool.noConfusion hmarked
    obtain ⟨source, _, rfl⟩ := hfound position hposition
      ((nearMarked_iff ..).mpr (.inl ⟨position, hmarked, Nat.le_add_right _ _,
        Nat.le_add_right _ _⟩))
    have hgrow : ∀ first second, place first ≤ place second + window →
        first ≤ second + window := by
      intro first second hle
      by_contra hlt
      have hstep := place.strictMono (not_le.mp hlt)
      have hwindow := place.strictMono.add_le_nat window second
      rw [Nat.add_comm window second] at hwindow
      omega
    rw [← hplace] at hmarked
    exact ⟨source, hmarked, hgrow index source hafter, hgrow source index hbefore⟩
  · right
    rwa [← hplace] at halways

/-! ## Order -/

/-- Some of the entries of a list, in the order of a key that goes up along the list. -/
theorem sublist_of_pairwise {key : α → ℕ} {part values : List α} (hpart : part.Subperm values)
    (hsorted : part.Pairwise fun left right => key left ≤ key right)
    (hvalues : values.Pairwise fun left right => key left < key right) :
    part.Sublist values := by
  obtain ⟨source, hperm, hsource⟩ := hpart
  have hinjective : ∀ left ∈ values, ∀ right ∈ values, key left = key right → left = right := by
    have hnodup : (values.map key).Nodup :=
      List.pairwise_map.mpr (hvalues.imp fun hlt => Nat.ne_of_lt hlt)
    exact fun left hleft right hright => List.inj_on_of_nodup_map hnodup hleft hright
  have heq : source = part := by
    have hsourceSorted : source.Pairwise fun left right => key left ≤ key right :=
      (hvalues.sublist hsource).imp fun hlt => Nat.le_of_lt hlt
    apply hperm.eq_of_pairwise _ hsourceSorted hsorted
    exact fun left right hleft hright hle hge => hinjective left (hsource.subset hleft) right
      (hsource.subset (hperm.mem_iff.mpr hright)) (Nat.le_antisymm hle hge)
  exact heq ▸ hsource

end Legroom
