import Legroom.SmartCrusher.AnchorSelector

/-!
# Anchors within their budget

What a region selects was taken one position after the other, each within the array and no
object twice.  A region takes no more than its slots, and the slots of the regions are those of
the budget as long as the front leaves one of them.
-/

namespace Legroom.SmartCrusher

open Json Utf8

/-! ## Taking positions -/

/-- Positions that are taken one after the other, and the hashes seen before and after. -/
inductive Taken (items : List Value) : List Utf8String → List ℕ → List Utf8String → Prop
  | done (seen : List Utf8String) : Taken items seen [] seen
  | plain {seen later : List Utf8String} {taken : List ℕ} {index : ℕ} {item : Value}
      (hitem : items[index]? = some item) (hplain : isObject item = false)
      (hrest : Taken items seen taken later) : Taken items seen (index :: taken) later
  | object {seen later : List Utf8String} {taken : List ℕ} {index : ℕ} {item : Value}
      (hitem : items[index]? = some item) (hobject : isObject item = true)
      (hfresh : computeItemHash item ∉ seen)
      (hrest : Taken items (computeItemHash item :: seen) taken later) :
      Taken items seen (index :: taken) later

namespace Taken

variable {items : List Value} {seen middle later : List Utf8String} {taken more : List ℕ}

theorem append (hfirst : Taken items seen taken middle) (hsecond : Taken items middle more later) :
    Taken items seen (taken ++ more) later := by
  induction hfirst with
  | done => exact hsecond
  | plain hitem hplain hrest ih => exact .plain hitem hplain (ih hsecond)
  | object hitem hobject hfresh hrest ih => exact .object hitem hobject hfresh (ih hsecond)

theorem lt_length (htaken : Taken items seen taken later) :
    ∀ index ∈ taken, index < items.length := by
  induction htaken with
  | done => exact fun _ hnil => absurd hnil List.not_mem_nil
  | plain hitem hplain hrest ih =>
      exact List.forall_mem_cons.mpr ⟨(List.getElem?_eq_some_iff.mp hitem).1, ih⟩
  | object hitem hobject hfresh hrest ih =>
      exact List.forall_mem_cons.mpr ⟨(List.getElem?_eq_some_iff.mp hitem).1, ih⟩

/-- What is taken was not seen. -/
theorem fresh (htaken : Taken items seen taken later) {index : ℕ} {item : Value}
    (hindex : index ∈ taken) (hitem : items[index]? = some item) (hobject : isObject item = true) :
    computeItemHash item ∉ seen := by
  induction htaken with
  | done => exact absurd hindex List.not_mem_nil
  | plain hfirst hplain hrest ih =>
      rcases List.mem_cons.mp hindex with rfl | hindex
      · rw [hfirst] at hitem
        cases hitem
        rw [hplain] at hobject
        cases hobject
      · exact ih hindex
  | object hfirst hother hfresh hrest ih =>
      rcases List.mem_cons.mp hindex with rfl | hindex
      · rw [hfirst] at hitem
        cases hitem
        exact hfresh
      · exact fun hseen => ih hindex (List.mem_cons_of_mem _ hseen)

/-- No two objects of one hash are taken. -/
theorem distinct (htaken : Taken items seen taken later) {index other : ℕ} {left right : Value}
    (hindex : index ∈ taken) (hother : other ∈ taken) (hne : index ≠ other)
    (hleft : items[index]? = some left) (hright : items[other]? = some right)
    (hleftObject : isObject left = true) (hrightObject : isObject right = true) :
    computeItemHash left ≠ computeItemHash right := by
  induction htaken with
  | done => exact absurd hindex List.not_mem_nil
  | @plain _ _ _ _ item hfirst hplain hrest ih =>
      have hno : ∀ {value : Value}, isObject value = true → some item ≠ some value := by
        rintro value hvalue heq
        cases heq
        rw [hplain] at hvalue
        cases hvalue
      rcases List.mem_cons.mp hindex with rfl | htail
      · exact absurd (hfirst.symm.trans hleft) (hno hleftObject)
      rcases List.mem_cons.mp hother with rfl | hlast
      · exact absurd (hfirst.symm.trans hright) (hno hrightObject)
      · exact ih htail hlast
  | object hfirst hobject hfresh hrest ih =>
      rcases List.mem_cons.mp hindex with rfl | htail
      · cases hfirst.symm.trans hleft
        rcases List.mem_cons.mp hother with rfl | hlast
        · exact absurd rfl hne
        · exact fun heq => hrest.fresh hlast hright hrightObject (heq ▸ List.mem_cons_self)
      rcases List.mem_cons.mp hother with rfl | hlast
      · cases hfirst.symm.trans hright
        exact fun heq => hrest.fresh htail hleft hleftObject (heq ▸ List.mem_cons_self)
      · exact ih htail hlast

end Taken

/-! ## Regions -/

/-- A selection after some more positions were taken. -/
structure Grown (items : List Value) (before after : Selection) (taken : List ℕ) : Prop where
  selected : after.selected = before.selected ∪ taken.toFinset
  seen : Taken items before.seen taken after.seen

namespace Grown

variable {items : List Value} {first second third : Selection} {taken more : List ℕ}

theorem refl (items : List Value) (state : Selection) : Grown items state state [] :=
  ⟨(Finset.union_empty _).symm, .done _⟩

theorem trans (hfirst : Grown items first second taken) (hsecond : Grown items second third more) :
    Grown items first third (taken ++ more) :=
  ⟨by rw [hsecond.selected, hfirst.selected, List.toFinset_append, Finset.union_assoc],
    hfirst.seen.append hsecond.seen⟩

end Grown

variable {items : List Value}

theorem Taken.eq_of_nil {seen later : List Utf8String} (htaken : Taken items seen [] later) :
    later = seen := by
  cases htaken
  rfl

/-- A step takes one position at most, and one for sure if nothing was seen before. -/
def TakesOne (items : List Value) (step : Selection → Selection) : Prop :=
  ∀ state, ∃ taken, taken.length ≤ 1 ∧ Grown items state (step state) taken ∧
    (state.seen = [] → taken ≠ [])

/-- A run of steps takes no more positions than there are steps. -/
theorem foldl_takes {α : Type*} {step : Selection → α → Selection} {entries : List α}
    (hsteps : ∀ entry ∈ entries, TakesOne items (step · entry)) (state : Selection) :
    ∃ taken, taken.length ≤ entries.length ∧ Grown items state (entries.foldl step state) taken ∧
      (state.seen = [] → entries ≠ [] → taken ≠ []) := by
  induction entries generalizing state with
  | nil => exact ⟨[], Nat.le_refl _, .refl items state, fun _ hne => absurd rfl hne⟩
  | cons entry entries ih =>
      obtain ⟨hstep, hsteps⟩ := List.forall_mem_cons.mp hsteps
      obtain ⟨taken, htaken, hgrown, hfirst⟩ := hstep state
      obtain ⟨more, hmore, hrest, -⟩ := ih hsteps (step state entry)
      refine ⟨taken ++ more, ?_, hgrown.trans hrest,
        fun hseen _ hnil => hfirst hseen (List.append_eq_nil_iff.mp hnil).1⟩
      rw [List.length_append, List.length_cons]
      omega

section

variable {F : Type*} {config : AnchorConfig F} {items : List Value}
variable {index : ℕ}

theorem tryIndex_grown (hdedup : config.dedupIdenticalItems = true) {state next : Selection}
    (htry : tryIndex config items state index = some next) : Grown items state next [index] := by
  rw [tryIndex, shouldInclude, hdedup] at htry
  cases hitem : items[index]? with
  | none => simp [hitem] at htry
  | some item =>
      have hinsert : insert index state.selected = state.selected ∪ [index].toFinset := by
        rw [Finset.insert_eq, Finset.union_comm]
        rfl
      by_cases hobject : isObject item = true
      · by_cases hseen : computeItemHash item ∈ state.seen
        · simp [hitem, hobject, hseen] at htry
        · simp only [hitem, hobject, hseen, Bool.not_true, Bool.false_eq_true, if_false,
            Option.some.injEq] at htry
          subst htry
          exact ⟨hinsert, .object hitem hobject hseen (.done _)⟩
      · rw [Bool.not_eq_true] at hobject
        simp only [hitem, hobject, Bool.not_true, Bool.not_false, Bool.false_eq_true, if_false,
          if_true, Option.some.injEq] at htry
        subst htry
        exact ⟨hinsert, .plain hitem hobject (.done _)⟩

/-- If nothing was seen, every position of the array may be taken. -/
theorem tryIndex_isSome {state : Selection} (hindex : index < items.length)
    (hseen : state.seen = []) : (tryIndex config items state index).isSome = true := by
  rw [tryIndex, shouldInclude, List.getElem?_eq_getElem hindex, hseen]
  by_cases hdedup : config.dedupIdenticalItems = true
  · by_cases hobject : isObject items[index] = true
    · simp [hdedup, hobject]
    · simp [hdedup, hobject]
  · simp [hdedup]

/-- Of the first positions of a list that may be taken one is taken, if any may. -/
theorem takesOne_findSome? (hdedup : config.dedupIdenticalItems = true)
    (hindex : index < items.length) (others : List ℕ) :
    TakesOne items fun state =>
      ((index :: others).findSome? (tryIndex config items state)).getD state := by
  intro state
  show ∃ taken, _ ∧ Grown items state
    (((index :: others).findSome? (tryIndex config items state)).getD state) taken ∧ _
  cases hfound : (index :: others).findSome? (tryIndex config items state) with
  | none =>
      refine ⟨[], Nat.zero_le _, .refl items state, fun hseen => ?_⟩
      have hnone := List.findSome?_eq_none_iff.mp hfound index List.mem_cons_self
      have hsome : (tryIndex config items state index).isSome = true :=
        tryIndex_isSome hindex hseen
      rw [hnone] at hsome
      cases hsome
  | some next =>
      obtain ⟨taken, -, htry⟩ := List.exists_of_findSome?_eq_some hfound
      exact ⟨[taken], Nat.le_refl _, tryIndex_grown hdedup htry, fun _ => List.cons_ne_nil _ _⟩

/-- Trying positions of the array one after the other. -/
theorem foldl_tryIndex (hdedup : config.dedupIdenticalItems = true) {α : Type*}
    (position : α → ℕ) {entries : List α}
    (hentries : ∀ entry ∈ entries, position entry < items.length) (state : Selection) :
    ∃ taken, taken.length ≤ entries.length ∧
      Grown items state (entries.foldl
        (fun state entry => (tryIndex config items state (position entry)).getD state) state)
        taken ∧ (state.seen = [] → entries ≠ [] → taken ≠ []) := by
  refine foldl_takes (fun entry hentry state => ?_) state
  have hone := takesOne_findSome? hdedup (hentries entry hentry) [] state
  simpa only [List.findSome?_singleton] using hone

end

section

variable {F : Type*} [Float64 F] {config : AnchorConfig F} {items : List Value}
  {first last slots : ℕ}

theorem lt_of_mem_spread {step : F} {index : ℕ} (hlast : last ≤ items.length)
    (hregion : first < last) (hindex : index ∈ spread first last slots step) :
    index < items.length := by
  obtain ⟨slot, -, rfl⟩ := List.mem_map.mp hindex
  omega

theorem length_spread (first last slots : ℕ) (step : F) :
    (spread first last slots step).length = slots := by
  rw [spread, List.length_map, List.length_range]

theorem selectByDensity_takes (hdedup : config.dedupIdenticalItems = true)
    (hlast : last ≤ items.length) (hregion : first < last) (seen : List Utf8String) :
    ∃ taken, taken.length ≤ slots ∧
      Grown items ⟨∅, seen⟩ (selectByDensity config items first last slots seen) taken := by
  have hranked : ∀ ranked : List (ℕ × F), (∀ candidate ∈ ranked, candidate.1 < items.length) →
      ∃ taken, taken.length ≤ slots ∧
        Grown items ⟨∅, seen⟩ ((ranked.take slots).foldl
          (fun state candidate => (tryIndex config items state candidate.1).getD state)
          ⟨∅, seen⟩) taken := by
    intro ranked hranked
    obtain ⟨taken, htaken, hgrown, -⟩ := foldl_tryIndex hdedup Prod.fst
      (fun candidate hcandidate => hranked candidate (List.mem_of_mem_take hcandidate)) ⟨∅, seen⟩
    exact ⟨taken, htaken.trans (List.length_take_le _ _), hgrown⟩
  refine hranked _ fun candidate hcandidate => ?_
  obtain ⟨index, hindex, hscored⟩ := List.mem_filterMap.mp (List.mem_mergeSort.mp hcandidate)
  split_ifs at hscored
  obtain ⟨item, -, rfl⟩ := Option.map_eq_some_iff.mp hscored
  exact lt_of_mem_spread hlast hregion hindex

/-- A region takes no more than its slots, and something if nothing was seen before. -/
theorem selectRegion_takes (hdedup : config.dedupIdenticalItems = true) (first : ℕ)
    (hlast : last ≤ items.length) (slots : ℕ) (seen : List Utf8String) (useDensity : Bool) :
    ∃ taken, taken.length ≤ slots ∧
      Grown items ⟨∅, seen⟩ (selectRegion config items first last slots seen useDensity) taken ∧
      (useDensity = false → seen = [] → 0 < slots → first < last → taken ≠ []) := by
  generalize hdone : selectRegion config items first last slots seen useDensity = done
  rw [selectRegion] at hdone
  by_cases hnone : slots = 0 ∨ last ≤ first
  · rw [if_pos hnone] at hdone
    exact ⟨[], Nat.zero_le _, hdone ▸ .refl _ _, by omega⟩
  rw [if_neg hnone] at hdone
  have hregion : first < last := by omega
  by_cases hdensity : useDensity = true
  · rw [if_pos hdensity] at hdone
    obtain ⟨taken, htaken, hgrown⟩ := selectByDensity_takes hdedup hlast hregion seen
    exact ⟨taken, htaken, hdone ▸ hgrown,
      fun hoff => absurd (hdensity.symm.trans hoff) (by decide)⟩
  rw [if_neg hdensity] at hdone
  by_cases hall : last - first ≤ slots
  · rw [if_pos hall] at hdone
    have hpositions : ∀ index ∈ List.range' first (last - first), id index < items.length := by
      intro index hindex
      rw [List.mem_range'_1] at hindex
      show index < items.length
      omega
    obtain ⟨taken, htaken, hgrown, hfirst⟩ := foldl_tryIndex hdedup id hpositions ⟨∅, seen⟩
    rw [List.length_range'] at htaken
    refine ⟨taken, htaken.trans hall, hdone ▸ hgrown,
      fun _ hseen _ _ => hfirst hseen fun hnil => ?_⟩
    have hempty := congrArg List.length hnil
    rw [List.length_range', List.length_nil] at hempty
    omega
  · rw [if_neg hall] at hdone
    let step : F := Float64.div (Float64.ofNat (last - first)) (Float64.ofNat (slots + 1))
    have hsteps : ∀ index ∈ spread first last slots step,
        TakesOne items (fillSlot config items first last · index) := fun index hindex =>
      takesOne_findSome? hdedup (lt_of_mem_spread hlast hregion hindex) (adjacent first last index)
    obtain ⟨taken, htaken, hgrown, hfirst⟩ := foldl_takes hsteps ⟨∅, seen⟩
    rw [length_spread] at htaken
    refine ⟨taken, htaken, hdone ▸ hgrown,
      fun _ hseen _ _ => hfirst hseen fun hnil => hnone (.inl ?_)⟩
    rw [← length_spread first last slots step, hnil, List.length_nil]

/-! ## Slots -/

theorem one_le_slotsFor (budget : ℕ) (weight : F) : 1 ≤ slotsFor budget weight :=
  Nat.le_max_left _ _

theorem one_le_allocateSlots (budget : ℕ) (weights : AnchorWeights F) :
    1 ≤ (allocateSlots budget weights).front ∧ 1 ≤ (allocateSlots budget weights).back := by
  have hfront := one_le_slotsFor budget weights.front
  have hback := one_le_slotsFor budget weights.back
  simp only [allocateSlots]
  split_ifs
  · exact ⟨hfront, Nat.le_max_left _ _⟩
  · exact ⟨hfront, hback⟩
  · exact ⟨hfront, hback⟩

/-- If the front leaves a slot of the budget, the slots are no more than the budget. -/
theorem allocateSlots_le {budget : ℕ} {weights : AnchorWeights F}
    (hfront : slotsFor budget weights.front < budget) :
    (allocateSlots budget weights).front + (allocateSlots budget weights).back +
      (allocateSlots budget weights).middle ≤ budget := by
  have hback := one_le_slotsFor budget weights.back
  simp only [allocateSlots]
  split_ifs
  · dsimp only
    omega
  · dsimp only
    omega
  · dsimp only
    omega

/-! ## Anchors -/

/-- The anchors are what the three regions take one behind the other. -/
theorem selectAnchors_takes (tools : TextTools) (pattern : DataPattern)
    (query : Option Utf8String) {maxItems : ℕ} (hdedup : config.dedupIdenticalItems = true)
    (hlong : maxItems < items.length)
    (hbudget : calculateAnchorBudget config items.length maxItems ≠ 0) :
    ∃ taken later, selectAnchors config tools items maxItems pattern query = taken.toFinset ∧
      Taken items [] taken later ∧ taken ≠ [] ∧ taken.length ≤
        let slots := allocateSlots (calculateAnchorBudget config items.length maxItems)
          (weightsFor config tools pattern query)
        slots.front + slots.back + slots.middle := by
  rw [selectAnchors, if_neg (by omega), if_neg (by omega), if_neg hbudget]
  have hslots := one_le_allocateSlots (calculateAnchorBudget config items.length maxItems)
    (weightsFor config tools pattern query)
  generalize allocateSlots (calculateAnchorBudget config items.length maxItems)
    (weightsFor config tools pattern query) = slots at hslots ⊢
  dsimp only
  have hthird : min (slots.front * 2) (items.length / 3) ≤ items.length := by omega
  obtain ⟨fronts, hfronts, hfront, -⟩ :=
    selectRegion_takes hdedup 0 hthird slots.front [] false
  generalize selectRegion config items 0 (min (slots.front * 2) (items.length / 3)) slots.front
    [] false = front at hfront ⊢
  obtain ⟨backs, hbacks, hback, hfirst⟩ := selectRegion_takes hdedup
    (max (items.length - slots.back * 2) (2 * items.length / 3)) (Nat.le_refl items.length)
    slots.back front.seen false
  generalize selectRegion config items (max (items.length - slots.back * 2)
    (2 * items.length / 3)) items.length slots.back front.seen false = back at hback hfirst ⊢
  -- The back takes something if the front has taken nothing.
  have hboth : fronts ++ backs ≠ [] := by
    intro hnil
    obtain ⟨rfl, rfl⟩ := List.append_eq_nil_iff.mp hnil
    exact hfirst rfl hfront.seen.eq_of_nil (by omega) (by omega) rfl
  have hends : front.selected ∪ back.selected = (fronts ++ backs).toFinset := by
    rw [hfront.selected, hback.selected, List.toFinset_append, Finset.empty_union,
      Finset.empty_union]
  have hseen : Taken items [] (fronts ++ backs) back.seen := hfront.seen.append hback.seen
  have hlength : (fronts ++ backs).length ≤ slots.front + slots.back := by
    rw [List.length_append]
    omega
  have hdone : ∃ taken later, front.selected ∪ back.selected = taken.toFinset ∧
      Taken items [] taken later ∧ taken ≠ [] ∧
      taken.length ≤ slots.front + slots.back + slots.middle :=
    ⟨fronts ++ backs, back.seen, hends, hseen, hboth, by omega⟩
  by_cases hmiddle : 0 < slots.middle
  · rw [if_pos hmiddle]
    by_cases hregion : front.selected.card < items.length - back.selected.card
    · rw [if_pos hregion]
      obtain ⟨middles, hmiddles, hgrown, -⟩ := selectRegion_takes hdedup front.selected.card
        (Nat.sub_le items.length back.selected.card) slots.middle back.seen
        config.useInformationDensity
      refine ⟨fronts ++ backs ++ middles, _, ?_, hseen.append hgrown.seen, ?_, ?_⟩
      · rw [hends, hgrown.selected, Finset.empty_union, ← List.toFinset_append]
      · exact fun hnil => hboth (List.append_eq_nil_iff.mp hnil).1
      · rw [List.length_append]
        omega
    · rw [if_neg hregion]
      exact hdone
  · rw [if_neg hmiddle]
    exact hdone

theorem computeItemHash_eq_of_same {left right : Value} (hleft : left.WellFormed)
    (hright : right.WellFormed) (hsame : left.same right = true) :
    computeItemHash left = computeItemHash right := by
  rw [computeItemHash, (pythonJsonDumpsSortKeys_eq_iff hleft hright).mpr hsame, computeItemHash]

/-- The anchors of a long array are positions of it, and no two of them are one object.  There
are some as soon as there is a budget, and no more than the budget if the front leaves one of
its slots. -/
theorem anchors_in_budget (config : AnchorConfig F) (tools : TextTools) (items : List Value)
    (maxItems : ℕ) (pattern : DataPattern) (query : Option Utf8String)
    (hitems : ∀ item ∈ items, item.WellFormed) (hdedup : config.dedupIdenticalItems = true)
    (hlong : maxItems < items.length) :
    let anchors := selectAnchors config tools items maxItems pattern query
    let budget := calculateAnchorBudget config items.length maxItems
    (∀ index ∈ anchors, index < items.length) ∧
      (∀ index ∈ anchors, ∀ other ∈ anchors, index ≠ other → ∀ left right,
        items[index]? = some left → items[other]? = some right →
          isObject left = true → isObject right = true → left.same right = false) ∧
      (1 ≤ budget → anchors.Nonempty) ∧
      (budget = 0 ∨ slotsFor budget (weightsFor config tools pattern query).front < budget →
        anchors.card ≤ budget ∧ (budget ≤ maxItems → anchors.card ≤ maxItems)) := by
  intro anchors budget
  by_cases hbudget : budget = 0
  · have hnone : anchors = ∅ := by
      show selectAnchors config tools items maxItems pattern query = ∅
      rw [selectAnchors, if_neg (by omega), if_neg (by omega), if_pos hbudget]
    rw [hnone]
    exact ⟨fun _ hempty => absurd hempty (Finset.notMem_empty _),
      fun _ hempty => absurd hempty (Finset.notMem_empty _), by omega,
      fun _ => ⟨Nat.zero_le _, fun _ => Nat.zero_le _⟩⟩
  obtain ⟨taken, later, htaken, hrun, hne, hlength⟩ :=
    selectAnchors_takes tools pattern query hdedup hlong hbudget
  have hmem : ∀ index, index ∈ anchors ↔ index ∈ taken := fun index => by
    rw [show anchors = taken.toFinset from htaken, List.mem_toFinset]
  refine ⟨fun index hindex => hrun.lt_length index ((hmem index).mp hindex), ?_, fun _ => ?_,
    fun hfront => ?_⟩
  · intro index hindex other hother hdistinct left right hleft hright hleftObject hrightObject
    rw [← Bool.not_eq_true]
    intro hsame
    exact hrun.distinct ((hmem index).mp hindex) ((hmem other).mp hother) hdistinct hleft hright
      hleftObject hrightObject (computeItemHash_eq_of_same
        (hitems left (List.mem_of_getElem? hleft)) (hitems right (List.mem_of_getElem? hright))
        hsame)
  · obtain ⟨index, hindex⟩ := List.exists_mem_of_ne_nil taken hne
    exact ⟨index, (hmem index).mpr hindex⟩
  · have hcard : anchors.card ≤ budget := by
      calc
        anchors.card = taken.toFinset.card := congrArg Finset.card htaken
        _ ≤ taken.length := List.toFinset_card_le taken
        _ ≤ _ := hlength
        _ ≤ budget := allocateSlots_le (hfront.resolve_left hbudget)
    exact ⟨hcard, fun hroom => hcard.trans hroom⟩

/-- Three anchors of three items where one was to stay, and none without a budget. -/
theorem anchors_over_max_items :
    let tools : TextTools := ⟨id, id, List.length⟩
    let config : AnchorConfig ℚ := AnchorConfig.default
    let stingy : AnchorConfig ℚ := { config with minAnchorSlots := 0 }
    let items : List Value := [.null, .bool true, .bool false]
    1 < (selectAnchors config tools items 1 .generic none).card ∧
      selectAnchors stingy tools items 1 .generic none = ∅ := by
  decide +kernel

theorem anchors_in_budget_four :
    let tools : TextTools := ⟨id, id, List.length⟩
    let items : List Value := [.null, .bool true, .null, .bool false, .null]
    (selectAnchors (AnchorConfig.default : AnchorConfig ℚ) tools items 4 .generic none).card ≤ 4 :=
  ((anchors_in_budget AnchorConfig.default ⟨id, id, List.length⟩
    [.null, .bool true, .null, .bool false, .null] 4 .generic none
    (by simp [Value.WellFormed]) rfl (by decide)).2.2.2 (.inr (by decide +kernel))).2
      (by decide +kernel)

end

end Legroom.SmartCrusher
