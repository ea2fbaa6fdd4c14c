import Mathlib.Data.List.Perm.Subperm
import Legroom.Proxy.PersistentMetrics

/-!
# What metrics keep

Counts move to the bucket of the others, but none is lost.  A state that is dumped and
read again is the same if the labels in it are read as they were written.
-/

namespace Legroom.PersistentMetrics

open Python

/-! ## Count maps -/

theorem count_eq_amountAt (values : Dict Text ℕ) (key : Text) :
    count values key = values.amountAt id key := by
  rw [count, Dict.amountAt, Option.map_id, id]

variable {values : Dict Text ℕ} {key : Text}

theorem count_of_not_mem (hkey : key ∉ values.keys) : count values key = 0 := by
  rw [count, Dict.get?_eq_none_iff.mpr hkey]
  rfl

theorem sumBy_addTo (values : Dict Text ℕ) (key : Text) (amount : ℕ) :
    (addTo values key amount).sumBy id = values.sumBy id + amount := by
  have herase := values.sumBy_erase id key
  rw [← count_eq_amountAt] at herase
  rw [addTo, Dict.sumBy_set, id, ← herase, add_assoc]

theorem foldl_goesFirst_mem (values : Dict Text ℕ) (first : Text) (rest : List Text) :
    rest.foldl (goesFirst values) first ∈ first :: rest := by
  induction rest generalizing first with
  | nil => exact List.mem_cons_self
  | cons key rest ih =>
      rw [List.foldl_cons]
      rcases List.mem_cons.mp (ih (goesFirst values first key)) with heq | hmem
      · rw [heq, goesFirst]
        split_ifs
        · exact List.mem_cons_of_mem first List.mem_cons_self
        · exact List.mem_cons_self
      · exact List.mem_cons_of_mem first (List.mem_cons_of_mem key hmem)

/-- One name gives its count to the others. -/
theorem evict_cases (values : Dict Text ℕ) : named values = [] ∧ evict values = values ∨
    ∃ evicted ∈ named values, evict values =
      (values.erase evicted).set other (count values other + count values evicted) := by
  rw [evict]
  cases hnamed : named values with
  | nil => exact .inl ⟨rfl, rfl⟩
  | cons first rest => exact .inr ⟨_, foldl_goesFirst_mem values first rest, rfl⟩

theorem mem_named : key ∈ named values ↔ key ∈ values.keys ∧ key ≠ other := by
  rw [named, List.mem_filter, decide_eq_true_eq]

theorem sumBy_evict (values : Dict Text ℕ) : (evict values).sumBy id = values.sumBy id := by
  rcases evict_cases values with ⟨-, heq⟩ | ⟨evicted, hevicted, heq⟩
  · rw [heq]
  · have hne : other ≠ evicted := (mem_named.mp hevicted).2.symm
    have hsame : count values other = count (values.erase evicted) other := by
      rw [count, count, Dict.get?_erase, if_neg hne]
    calc
      (evict values).sumBy id
        = ((values.erase evicted).erase other).sumBy id +
            (count (values.erase evicted) other + count values evicted) := by
          rw [heq, Dict.sumBy_set, id, hsame]
      _ = (values.erase evicted).sumBy id + count values evicted := by
          rw [← add_assoc, count_eq_amountAt (values.erase evicted), Dict.sumBy_erase]
      _ = values.sumBy id := by rw [count_eq_amountAt, Dict.sumBy_erase]

theorem mem_keys_evict (hkey : key ∈ (evict values).keys) : key = other ∨ key ∈ values.keys := by
  rcases evict_cases values with ⟨-, heq⟩ | ⟨evicted, -, heq⟩
  · rw [heq] at hkey
    exact .inr hkey
  · rw [heq, Dict.mem_keys_set] at hkey
    exact hkey.imp_right fun hmem => (Dict.mem_keys_erase.mp hmem).2

theorem nodup_named (values : Dict Text ℕ) : (named values).Nodup := values.nodup.filter _

theorem length_named_evict (hnamed : named values ≠ []) :
    (named (evict values)).length < (named values).length := by
  rcases evict_cases values with ⟨hempty, -⟩ | ⟨evicted, hevicted, heq⟩
  · exact absurd hempty hnamed
  · have hsubset : named (evict values) ⊆ (named values).erase evicted := by
      intro key hkey
      obtain ⟨hmem, hother⟩ := mem_named.mp hkey
      rw [heq, Dict.mem_keys_set, or_iff_right hother, Dict.mem_keys_erase] at hmem
      exact ((nodup_named values).mem_erase_iff).mpr ⟨hmem.1, mem_named.mpr ⟨hmem.2, hother⟩⟩
    have hlength := (List.Nodup.subperm (nodup_named _) hsubset).length_le
    have hpositive := List.length_pos_of_mem hevicted
    rw [List.length_erase_of_mem hevicted] at hlength
    omega

/-- What a compaction keeps. -/
theorem compactCountMapFrom_spec (limit : ℕ) {fuel : ℕ}
    (hfuel : (named values).length ≤ limit + fuel) :
    (named (compactCountMapFrom limit fuel values)).length ≤ limit ∧
      (compactCountMapFrom limit fuel values).sumBy id = values.sumBy id ∧
        ∀ key ∈ (compactCountMapFrom limit fuel values).keys, key = other ∨ key ∈ values.keys := by
  induction fuel generalizing values with
  | zero => exact ⟨hfuel, rfl, fun key hkey => .inr hkey⟩
  | succ fuel ih =>
      rw [compactCountMapFrom]
      split_ifs with hlimit
      · have hnamed : named values ≠ [] := List.ne_nil_of_length_pos (Nat.zero_lt_of_lt hlimit)
        have hless := length_named_evict hnamed
        obtain ⟨hbound, hsum, hkeys⟩ :=
          ih (show (named (evict values)).length ≤ limit + fuel by omega)
        refine ⟨hbound, hsum.trans (sumBy_evict values), fun key hkey => ?_⟩
        rcases hkeys key hkey with hother | hmem
        · exact .inl hother
        · exact mem_keys_evict hmem
      · exact ⟨not_lt.mp hlimit, rfl, fun key hkey => .inr hkey⟩

theorem compactCountMap_of_le {limit : ℕ} (hlimit : (named values).length ≤ limit) :
    compactCountMap values limit = values := by
  have hfrom : ∀ fuel, compactCountMapFrom limit fuel values = values := by
    intro fuel
    cases fuel with
    | zero => rfl
    | succ fuel => rw [compactCountMapFrom, if_neg (not_lt.mpr hlimit)]
  exact hfrom _

/-- What an increment keeps. -/
theorem incrementCount_spec {limit : ℕ} :
    (named (incrementCount values key limit)).length ≤ limit ∧
      (incrementCount values key limit).sumBy id = values.sumBy id + 1 ∧
        ∀ label ∈ (incrementCount values key limit).keys,
          label = other ∨ label = key ∨ label ∈ values.keys := by
  obtain ⟨hbound, hsum, hkeys⟩ := compactCountMapFrom_spec limit
    (show (named (addTo values key 1)).length ≤ limit + (named (addTo values key 1)).length by
      omega)
  refine ⟨hbound, hsum.trans (sumBy_addTo values key 1), fun label hlabel => ?_⟩
  exact (hkeys label hlabel).imp_right Dict.mem_keys_set.mp

/-! ## Models -/

/-- An amount of all models. -/
def modelTotal (amount : ModelEntry → ℕ) (models : Models) : ℕ :=
  models.tracked.sumBy amount + amount models.other

/-- An amount that a request adds to. -/
structure IsAmount (tables : CharTables) (amount : ModelEntry → ℕ) (delta : RequestMetrics → ℕ) :
    Prop where
  empty : amount .empty = 0
  merge : ∀ destination source,
    amount (mergeModelEntry destination source) = amount destination + amount source
  add : ∀ entry request timestamp,
    amount (addToModel tables entry request timestamp) = amount entry + delta request

variable {amount : ModelEntry → ℕ}

theorem modelTotal_compactModels
    (hmerge : ∀ destination source,
    amount (mergeModelEntry destination source) = amount destination + amount source)
    (models : Models) : modelTotal amount (compactModels models) = modelTotal amount models := by
  rw [compactModels]
  split_ifs
  · rfl
  · have hmerged : ∀ (entries : List (Text × ModelEntry)) (entry : ModelEntry),
        amount (entries.foldl (fun other entry => mergeModelEntry other entry.2) entry) =
          amount entry + (entries.map fun entry => amount entry.2).sum := by
      intro entries
      induction entries with
      | nil => exact fun entry => rfl
      | cons first entries ih =>
          intro entry
          rw [List.foldl_cons, ih, hmerge, List.map_cons, List.sum_cons, add_assoc]
    have hperm := ((List.mergeSort_perm models.tracked.entries rankedBefore).map
      fun entry => amount entry.2).sum_eq
    have hsplit := congrArg (fun entries => (entries.map fun entry => amount entry.2).sum)
      (List.take_append_drop maxExposedModels (models.tracked.entries.mergeSort rankedBefore))
    simp only [List.map_append, List.sum_append] at hsplit
    rw [modelTotal, modelTotal, Dict.sumBy, Dict.sumBy, ← hperm, ← hsplit]
    dsimp only
    rw [hmerged]
    omega

theorem modelTotal_recordModel {tables : CharTables} (lower : Text → Text)
    {delta : RequestMetrics → ℕ} (hamount : IsAmount tables amount delta) (models : Models)
    (request : RequestMetrics) (timestamp : Text) :
    modelTotal amount (recordModel tables lower models request timestamp) =
      modelTotal amount models + delta request := by
  rw [recordModel, modelTotal_compactModels hamount.merge]
  split_ifs
  · rw [modelTotal, modelTotal, hamount.add, add_assoc]
  · have herase := models.tracked.sumBy_erase amount (modelName tables lower request.model)
    have hentry : amount ((models.tracked.get? (modelName tables lower request.model)).getD
        .empty) = models.tracked.amountAt amount (modelName tables lower request.model) := by
      rw [Dict.amountAt]
      cases models.tracked.get? (modelName tables lower request.model) with
      | some entry => rfl
      | none => exact hamount.empty
    rw [modelTotal, modelTotal]
    dsimp only
    rw [Dict.sumBy_set, hamount.add, hentry, ← herase]
    omega

theorem size_compactModels (models : Models) :
    (compactModels models).tracked.size ≤ maxTrackedModels := by
  rw [compactModels]
  split_ifs with hsize
  · exact hsize
  · exact (List.length_take_le _ _).trans (by decide)

theorem mem_keys_compactModels {models : Models}
    (hkey : key ∈ (compactModels models).tracked.keys) :
    key ∈ models.tracked.keys := by
  rw [compactModels] at hkey
  split_ifs at hkey
  · exact hkey
  · obtain ⟨entry, hentry, rfl⟩ := List.mem_map.mp hkey
    exact List.mem_map_of_mem
      ((List.mergeSort_perm _ _).mem_iff.mp (List.mem_of_mem_take hentry))

/-! ## Conservation -/

section

variable {F : Type*} [Money F]

structure Conserved (state : MetricsState F) : Prop where
  byProvider : state.requests.byProvider.sumBy id = state.requests.total
  cacheByProvider : state.prefixCache.byProvider.sumBy id = state.requests.total
  models : modelTotal ModelEntry.requests state.models = state.requests.total
  input : modelTotal ModelEntry.inputTokens state.models = state.tokens.input
  output : modelTotal ModelEntry.outputTokens state.models = state.tokens.output
  attempted :
    modelTotal ModelEntry.attemptedInputTokens state.models = state.tokens.attemptedInput
  saved : modelTotal ModelEntry.tokensSaved state.models = state.tokens.saved

/-- No map is larger than it may be, apart from the bucket of the others. -/
structure Bounded (state : MetricsState F) : Prop where
  byProvider : (named state.requests.byProvider).length ≤ maxProviderValues
  cacheByProvider : (named state.prefixCache.byProvider).length ≤ maxProviderValues
  byStack : (named state.requests.byStack).length ≤ maxStackValues
  tracked : state.models.tracked.size ≤ maxTrackedModels
  misses : ∀ key ∈ state.prefixCache.missesByReason.keys, key ∈ knownMissReasons
  waste : ∀ key ∈ state.wasteSignals.keys, key ∈ knownWasteSignals ∨ key = other

variable {tables : CharTables} {lower : Text → Text}
variable {values : Dict Text ℕ}

theorem mem_keys_recordWaste {wasteSignals : Value} {key : Text}
    (hkey : key ∈ (recordWaste tables values wasteSignals).keys) :
    key ∈ values.keys ∨ ∃ signals, wasteSignals = .dict signals ∧
      ((∃ signal ∈ signals, signal.1 ∈ knownWasteSignals ∧ key = signal.1) ∨
        (∃ signal ∈ signals, signal.1 ∉ knownWasteSignals ∧ key = other)) := by
  cases wasteSignals with
  | dict signals =>
      rw [recordWaste] at hkey
      have hrun : ∀ (rest : List (Text × Value)) (values : Dict Text ℕ),
          key ∈ (rest.foldl (fun values signal => addTo values
            (if signal.1 ∈ knownWasteSignals then signal.1 else other)
              (coerceInt tables signal.2)) values).keys →
            key ∈ values.keys ∨ (∃ signal ∈ rest, signal.1 ∈ knownWasteSignals ∧ key = signal.1) ∨
              ∃ signal ∈ rest, signal.1 ∉ knownWasteSignals ∧ key = other := by
        intro rest
        induction rest with
        | nil => exact fun values hmem => .inl hmem
        | cons signal rest ih =>
            intro values hmem
            rw [List.foldl_cons] at hmem
            rcases ih _ hmem with hbefore | ⟨found, hfound, hknown⟩ | ⟨found, hfound, hunknown⟩
            · rw [addTo, Dict.mem_keys_set] at hbefore
              rcases hbefore with heq | hbefore
              · split_ifs at heq with hknown
                · exact .inr (.inl ⟨signal, List.mem_cons_self, hknown, heq⟩)
                · exact .inr (.inr ⟨signal, List.mem_cons_self, hknown, heq⟩)
              · exact .inl hbefore
            · exact .inr (.inl ⟨found, List.mem_cons_of_mem signal hfound, hknown⟩)
            · exact .inr (.inr ⟨found, List.mem_cons_of_mem signal hfound, hunknown⟩)
      rcases hrun signals values hkey with hbefore | hadded
      · exact .inl hbefore
      · exact .inr ⟨signals, rfl, hadded⟩
  | none => exact .inl hkey
  | number _ => exact .inl hkey
  | str _ => exact .inl hkey
  | list _ => exact .inl hkey

theorem missBucket_mem (reason : Value) : missBucket reason ∈ knownMissReasons := by
  have hunknown : unknown ∈ knownMissReasons := by decide
  cases reason with
  | str reason =>
      rw [missBucket]
      split_ifs with hknown
      · exact hknown
      · exact hunknown
  | none => exact hunknown
  | number _ => exact hunknown
  | list _ => exact hunknown
  | dict _ => exact hunknown

theorem after_recordStack (state : MetricsState F) (timestamp : Text) (stack : Value) :
    after tables lower state timestamp (.recordStack stack) = state ∨
      after tables lower state timestamp (.recordStack stack) =
        recordStack state (label tables stack) timestamp := by
  cases stack with
  | none => exact .inl rfl
  | number _ => exact .inr rfl
  | str _ => exact .inr rfl
  | list _ => exact .inr rfl
  | dict _ => exact .inr rfl

variable {state : MetricsState F}

theorem conserved_after (hconserved : Conserved state) (timestamp : Text) (call : MetricsCall) :
    Conserved (after tables lower state timestamp call) := by
  obtain ⟨hprovider, hcache, hmodels, hinput, houtput, hattempted, hsaved⟩ := hconserved
  cases call with
  | recordRequest request =>
      have hrecorded := fun {amount : ModelEntry → ℕ} {delta : RequestMetrics → ℕ}
        (hamount : IsAmount tables amount delta) =>
          modelTotal_recordModel lower hamount state.models request timestamp
      constructor
      case byProvider => exact incrementCount_spec.2.1.trans (congrArg (· + 1) hprovider)
      case cacheByProvider => exact incrementCount_spec.2.1.trans (congrArg (· + 1) hcache)
      case models =>
        exact (hrecorded ⟨rfl, fun _ _ => rfl, fun _ _ _ => rfl⟩).trans (congrArg (· + 1) hmodels)
      case input =>
        exact (hrecorded ⟨rfl, fun _ _ => rfl, fun _ _ _ => rfl⟩).trans
          (congrArg (· + coerceInt tables request.inputTokens) hinput)
      case output =>
        exact (hrecorded ⟨rfl, fun _ _ => rfl, fun _ _ _ => rfl⟩).trans
          (congrArg (· + coerceInt tables request.outputTokens) houtput)
      case attempted =>
        exact (hrecorded ⟨rfl, fun _ _ => rfl, fun _ _ _ => rfl⟩).trans
          (congrArg (· + coerceInt tables request.attemptedInputTokens) hattempted)
      case saved =>
        exact (hrecorded ⟨rfl, fun _ _ => rfl, fun _ _ _ => rfl⟩).trans
          (congrArg (· + coerceInt tables request.tokensSaved) hsaved)
  | recordStack stack =>
      rcases after_recordStack state timestamp stack with heq | heq
      · rw [heq]
        exact ⟨hprovider, hcache, hmodels, hinput, houtput, hattempted, hsaved⟩
      · rw [heq]
        exact ⟨hprovider, hcache, hmodels, hinput, houtput, hattempted, hsaved⟩
  | recordFailed => exact ⟨hprovider, hcache, hmodels, hinput, houtput, hattempted, hsaved⟩
  | recordRateLimited => exact ⟨hprovider, hcache, hmodels, hinput, houtput, hattempted, hsaved⟩
  | recordCacheBust _ => exact ⟨hprovider, hcache, hmodels, hinput, houtput, hattempted, hsaved⟩
  | recordCacheMiss _ => exact ⟨hprovider, hcache, hmodels, hinput, houtput, hattempted, hsaved⟩
  | setLastSavedAt _ => exact ⟨hprovider, hcache, hmodels, hinput, houtput, hattempted, hsaved⟩

theorem bounded_after (hbounded : Bounded state) (timestamp : Text) (call : MetricsCall) :
    Bounded (after tables lower state timestamp call) := by
  obtain ⟨hprovider, hcache, hstack, htracked, hmisses, hwaste⟩ := hbounded
  cases call with
  | recordRequest request =>
      constructor
      case byProvider => exact incrementCount_spec.1
      case cacheByProvider => exact incrementCount_spec.1
      case byStack =>
        rw [after, recordRequest]
        dsimp only
        split_ifs
        · exact incrementCount_spec.1
        · exact hstack
      case tracked => exact size_compactModels _
      case misses => exact hmisses
      case waste =>
        intro key hkey
        rcases mem_keys_recordWaste hkey with hbefore | ⟨_, -, ⟨signal, -, hknown, rfl⟩ | ⟨_, -, -, heq⟩⟩
        · exact hwaste key hbefore
        · exact .inl hknown
        · exact .inr heq
  | recordStack stack =>
      rcases after_recordStack state timestamp stack with heq | heq
      · rw [heq]
        exact ⟨hprovider, hcache, hstack, htracked, hmisses, hwaste⟩
      · rw [heq]
        exact ⟨hprovider, hcache, incrementCount_spec.1, htracked, hmisses, hwaste⟩
  | recordFailed => exact ⟨hprovider, hcache, hstack, htracked, hmisses, hwaste⟩
  | recordRateLimited => exact ⟨hprovider, hcache, hstack, htracked, hmisses, hwaste⟩
  | recordCacheBust _ => exact ⟨hprovider, hcache, hstack, htracked, hmisses, hwaste⟩
  | recordCacheMiss reason =>
      refine ⟨hprovider, hcache, hstack, htracked, fun key hkey => ?_, hwaste⟩
      rcases Dict.mem_keys_set.mp hkey with rfl | hbefore
      · exact missBucket_mem reason
      · exact hmisses key hbefore
  | setLastSavedAt _ => exact ⟨hprovider, hcache, hstack, htracked, hmisses, hwaste⟩

/-! ## Rebuilding -/

theorem addTo_of_not_mem {before : Dict Text ℕ} {key : Text} (amount : ℕ)
    (hkey : key ∉ before.keys) : addTo before key amount = before.set key amount := by
  rw [addTo, count_of_not_mem hkey, zero_add]

/-- Labels that are read as they are keep their places. -/
theorem normalizeCountMap_eq_self {limit : ℕ} (hlimit : (named values).length ≤ limit)
    (hlabels : ∀ key ∈ values.keys, labelOfText tables key = key) :
    normalizeCountMap tables values limit = values := by
  rw [normalizeCountMap, Dict.foldl_set_eq_self fun before entry hentry hfresh => ?_,
    compactCountMap_of_le hlimit]
  rw [hlabels entry.1 (List.mem_map_of_mem hentry), addTo_of_not_mem entry.2 hfresh]

theorem normalizeEnumMap_eq_self {allowed : List Text}
    (hallowed : ∀ key ∈ values.keys, key ∈ allowed) : normalizeEnumMap values allowed = values := by
  refine Dict.foldl_set_eq_self fun before entry hentry hfresh => ?_
  rw [if_pos (hallowed entry.1 (List.mem_map_of_mem hentry)), addTo_of_not_mem entry.2 hfresh]

theorem mergeModelEntry_empty (entry : ModelEntry) : mergeModelEntry .empty entry = entry := by
  simp only [mergeModelEntry, ModelEntry.empty, zero_add]
  rfl

theorem normalizeModels_eq_self {models : Models} (hnames : ∀ key ∈ models.tracked.keys,
    modelNameOfText tables lower key = key ∧ key ≠ other) :
    normalizeModels tables lower models = models := by
  have hrun : ∀ (entries : List (Text × ModelEntry)) (before : Models),
      (∀ entry ∈ entries, modelNameOfText tables lower entry.1 = entry.1 ∧ entry.1 ≠ other) →
        entries.foldl (normalizeModel tables lower) before =
          ⟨entries.foldl (fun tracked entry => tracked.set entry.1 entry.2) before.tracked,
            before.other⟩ := by
    intro entries
    induction entries with
    | nil => exact fun before _ => rfl
    | cons entry entries ih =>
        intro before hentries
        obtain ⟨⟨hname, hother⟩, hrest⟩ := List.forall_mem_cons.mp hentries
        rw [List.foldl_cons, List.foldl_cons, ih _ hrest, normalizeModel]
        rw [hname, if_neg hother]
  rw [normalizeModels, hrun _ _ fun entry hentry => hnames entry.1 (List.mem_map_of_mem hentry)]
  dsimp only
  rw [mergeModelEntry_empty, Dict.foldl_set_eq_self fun _ _ _ _ => rfl]

/-- An amount that is read as it was written. -/
def IsSettledAmount (amount : F) : Prop := Money.isUsable amount = true ∧ Money.round amount = amount

theorem IsSettledAmount.round_usable {amount : F} (hamount : IsSettledAmount amount) :
    Money.round (usable amount) = amount := by
  rw [usable, if_pos hamount.1, hamount.2]

/-- Every label and every amount in a state is read as it was written. -/
structure Settled (tables : CharTables) (lower : Text → Text) (state : MetricsState F) : Prop where
  byProvider : ∀ key ∈ state.requests.byProvider.keys, labelOfText tables key = key
  cacheByProvider : ∀ key ∈ state.prefixCache.byProvider.keys, labelOfText tables key = key
  byStack : ∀ key ∈ state.requests.byStack.keys, labelOfText tables key = key
  waste : ∀ key ∈ state.wasteSignals.keys, key ∈ knownWasteSignals
  tracked : ∀ key ∈ state.models.tracked.keys,
    modelNameOfText tables lower key = key ∧ key ≠ other
  inputUsd : IsSettledAmount state.cost.inputUsd
  compressionSavingsUsd : IsSettledAmount state.cost.compressionSavingsUsd
  cacheSavingsUsd : IsSettledAmount state.cost.cacheSavingsUsd

theorem rebuild_eq_self (hbounded : Bounded state) (hsettled : Settled tables lower state) :
    rebuild tables lower state = state := by
  rw [rebuild, normalize]
  dsimp only
  rw [normalizeCountMap_eq_self hbounded.byProvider hsettled.byProvider,
    normalizeCountMap_eq_self hbounded.byStack hsettled.byStack,
    normalizeCountMap_eq_self hbounded.cacheByProvider hsettled.cacheByProvider,
    normalizeEnumMap_eq_self hbounded.misses, normalizeEnumMap_eq_self hsettled.waste,
    normalizeModels_eq_self hsettled.tracked, hsettled.inputUsd.round_usable,
    hsettled.compressionSavingsUsd.round_usable, hsettled.cacheSavingsUsd.round_usable,
    compactModels, if_pos hbounded.tracked]

/-! ## Runs -/

/-- A label that does not begin or end with white space. -/
def IsStable (tables : CharTables) (label : Text) : Prop := strip tables label = label

instance (tables : CharTables) (label : Text) : Decidable (IsStable tables label) :=
  inferInstanceAs (Decidable (strip tables label = label))

/-- All signals have a bucket of their own. -/
def knowsSignals : Value → Bool
  | .dict signals => signals.all (·.1 ∈ knownWasteSignals)
  | _ => true

variable (tables) in
/-- What is recorded will be read again as it is. -/
def Settles (state : MetricsState F) : MetricsCall → Prop
  | .recordRequest request =>
      IsStable tables (label tables request.provider) ∧
      (request.recordStack = true → IsStable tables (label tables request.stack)) ∧
      IsStable tables (label tables request.model) ∧
      knowsSignals request.wasteSignals = true ∧
      Money.isUsable (Money.add state.cost.inputUsd (coerceFloat request.inputUsd)) = true ∧
      Money.isUsable (Money.add state.cost.compressionSavingsUsd
        (coerceFloat request.compressionSavingsUsd)) = true ∧
      Money.isUsable (Money.add state.cost.cacheSavingsUsd
        (coerceFloat request.cacheSavingsUsd)) = true
  | .recordStack stack => IsStable tables (label tables stack)
  | _ => True

instance decidableSettles (state : MetricsState F) :
    (call : MetricsCall) → Decidable (Settles tables state call)
  | .recordRequest request => inferInstanceAs (Decidable (
      IsStable tables (label tables request.provider) ∧
      (request.recordStack = true → IsStable tables (label tables request.stack)) ∧
      IsStable tables (label tables request.model) ∧
      knowsSignals request.wasteSignals = true ∧
      Money.isUsable (Money.add state.cost.inputUsd (coerceFloat request.inputUsd)) = true ∧
      Money.isUsable (Money.add state.cost.compressionSavingsUsd
        (coerceFloat request.compressionSavingsUsd)) = true ∧
      Money.isUsable (Money.add state.cost.cacheSavingsUsd
        (coerceFloat request.cacheSavingsUsd)) = true))
  | .recordStack stack => inferInstanceAs (Decidable (IsStable tables (label tables stack)))
  | .recordFailed => .isTrue trivial
  | .recordRateLimited => .isTrue trivial
  | .recordCacheBust _ => .isTrue trivial
  | .recordCacheMiss _ => .isTrue trivial
  | .setLastSavedAt _ => .isTrue trivial

theorem labelOfText_label {value : Value} (hstable : IsStable tables (label tables value)) :
    labelOfText tables (label tables value) = label tables value := by
  have hshape : label tables value ≠ [] ∧ (label tables value).length ≤ maxLabelLength := by
    have hother : other ≠ [] ∧ other.length ≤ maxLabelLength := by decide
    cases value with
    | str value =>
        rw [label, labelOfText]
        split_ifs with hempty
        · exact hother
        · refine ⟨fun htake => ?_, List.length_take_le _ _⟩
          rcases List.take_eq_nil_iff.mp htake with hzero | hnil
          · exact absurd hzero (by decide)
          · exact hempty hnil
    | none => exact hother
    | number _ => exact hother
    | list _ => exact hother
    | dict _ => exact hother
  rw [labelOfText]
  rw [hstable, if_neg hshape.1, List.take_of_length_le hshape.2]

theorem labelOfText_other (hother : IsStable tables other) :
    labelOfText tables other = other :=
  @labelOfText_label tables .none hother

theorem labels_incrementCount {value : Value} {limit : ℕ} (hother : IsStable tables other)
    (hvalues : ∀ key ∈ values.keys, labelOfText tables key = key)
    (hstable : IsStable tables (label tables value)) :
    ∀ key ∈ (incrementCount values (label tables value) limit).keys,
      labelOfText tables key = key := by
  intro key hkey
  rcases incrementCount_spec.2.2 key hkey with rfl | rfl | hbefore
  · exact labelOfText_other hother
  · exact labelOfText_label hstable
  · exact hvalues key hbefore

theorem names_recordModel {models : Models} {request : RequestMetrics} {timestamp : Text}
    (hmodels : ∀ key ∈ models.tracked.keys, modelNameOfText tables lower key = key ∧ key ≠ other)
    (hstable : IsStable tables (label tables request.model)) :
    ∀ key ∈ (recordModel tables lower models request timestamp).tracked.keys,
      modelNameOfText tables lower key = key ∧ key ≠ other := by
  intro key hkey
  have hbefore := mem_keys_compactModels hkey
  split_ifs at hbefore with hname
  · exact hmodels key hbefore
  · rcases Dict.mem_keys_set.mp hbefore with rfl | hold
    · refine ⟨?_, hname⟩
      rw [modelName] at hname ⊢
      split_ifs at hname ⊢ with hunknown
      · exact absurd rfl hname
      · rw [modelNameOfText, labelOfText_label hstable]
        exact if_neg hunknown
    · exact hmodels key hold

theorem settled_after [LawfulMoney F] (hother : IsStable tables other)
    (hsettled : Settled tables lower state) (timestamp : Text) {call : MetricsCall}
    (hcall : Settles tables state call) :
    Settled tables lower (after tables lower state timestamp call) := by
  obtain ⟨hprovider, hcache, hstack, hwaste, hmodels, hinput, hcompression, hcacheUsd⟩ := hsettled
  have hcost : ∀ {total : F} {amount : Value},
      Money.isUsable (Money.add total (coerceFloat amount)) = true →
        IsSettledAmount (addCost total amount) := fun husable =>
    ⟨LawfulMoney.isUsable_round _ husable, LawfulMoney.round_round _ husable⟩
  cases call with
  | recordRequest request =>
      obtain ⟨hproviderLabel, hstackLabel, hmodel, hsignals, hinputUsd, hcompressionUsd, hcacheCost⟩ :=
        hcall
      constructor
      case byProvider => exact labels_incrementCount hother hprovider hproviderLabel
      case cacheByProvider => exact labels_incrementCount hother hcache hproviderLabel
      case byStack =>
        rw [after, recordRequest]
        dsimp only
        split_ifs with hrecord
        · exact labels_incrementCount hother hstack (hstackLabel hrecord)
        · exact hstack
      case waste =>
        intro key hkey
        rcases mem_keys_recordWaste hkey with
          hbefore | ⟨signals, hdict, ⟨_, -, hknown, rfl⟩ | ⟨signal, hsignal, hnot, -⟩⟩
        · exact hwaste key hbefore
        · exact hknown
        · rw [hdict, knowsSignals, List.all_eq_true] at hsignals
          exact absurd (of_decide_eq_true (hsignals signal hsignal)) hnot
      case tracked => exact names_recordModel hmodels hmodel
      case inputUsd => exact hcost hinputUsd
      case compressionSavingsUsd => exact hcost hcompressionUsd
      case cacheSavingsUsd => exact hcost hcacheCost
  | recordStack stack =>
      rcases after_recordStack state timestamp stack with heq | heq
      · rw [heq]
        exact ⟨hprovider, hcache, hstack, hwaste, hmodels, hinput, hcompression, hcacheUsd⟩
      · rw [heq]
        exact ⟨hprovider, hcache, labels_incrementCount hother hstack hcall, hwaste, hmodels,
          hinput, hcompression, hcacheUsd⟩
  | recordFailed =>
      exact ⟨hprovider, hcache, hstack, hwaste, hmodels, hinput, hcompression, hcacheUsd⟩
  | recordRateLimited =>
      exact ⟨hprovider, hcache, hstack, hwaste, hmodels, hinput, hcompression, hcacheUsd⟩
  | recordCacheBust _ =>
      exact ⟨hprovider, hcache, hstack, hwaste, hmodels, hinput, hcompression, hcacheUsd⟩
  | recordCacheMiss _ =>
      exact ⟨hprovider, hcache, hstack, hwaste, hmodels, hinput, hcompression, hcacheUsd⟩
  | setLastSavedAt _ =>
      exact ⟨hprovider, hcache, hstack, hwaste, hmodels, hinput, hcompression, hcacheUsd⟩

variable (tables lower) in
def runCalls (state : MetricsState F) (calls : List (Text × MetricsCall)) : MetricsState F :=
  calls.foldl (fun state call => after tables lower state call.1 call.2) state

variable (tables lower) in
/-- Every call of a run settles. -/
def SettlesAll : MetricsState F → List (Text × MetricsCall) → Prop
  | _, [] => True
  | state, (timestamp, call) :: calls =>
      Settles tables state call ∧ SettlesAll (after tables lower state timestamp call) calls

variable (lower) in
theorem runCalls_kept [LawfulMoney F] (hother : IsStable tables other)
    (calls : List (Text × MetricsCall)) (hconserved : Conserved state) (hbounded : Bounded state) :
    Conserved (runCalls tables lower state calls) ∧ Bounded (runCalls tables lower state calls) ∧
      (Settled tables lower state → SettlesAll tables lower state calls →
        Settled tables lower (runCalls tables lower state calls)) := by
  induction calls generalizing state with
  | nil => exact ⟨hconserved, hbounded, fun hsettled _ => hsettled⟩
  | cons call calls ih =>
      obtain ⟨hrunConserved, hrunBounded, hrunSettled⟩ := ih
        (conserved_after hconserved call.1 call.2) (bounded_after hbounded call.1 call.2)
      exact ⟨hrunConserved, hrunBounded, fun hsettled hall =>
        hrunSettled (settled_after hother hsettled call.1 hall.1) hall.2⟩

theorem conserved_empty : Conserved (.empty : MetricsState F) :=
  ⟨rfl, rfl, rfl, rfl, rfl, rfl, rfl⟩

theorem bounded_empty : Bounded (.empty : MetricsState F) :=
  ⟨Nat.zero_le _, Nat.zero_le _, Nat.zero_le _, Nat.zero_le _,
    fun _ hkey => absurd hkey List.not_mem_nil, fun _ hkey => absurd hkey List.not_mem_nil⟩

theorem settled_empty [LawfulMoney F] : Settled tables lower (.empty : MetricsState F) :=
  have hzero : IsSettledAmount (Money.zero : F) :=
    ⟨LawfulMoney.isUsable_zero, LawfulMoney.round_zero⟩
  ⟨fun _ hkey => absurd hkey List.not_mem_nil, fun _ hkey => absurd hkey List.not_mem_nil,
    fun _ hkey => absurd hkey List.not_mem_nil, fun _ hkey => absurd hkey List.not_mem_nil,
    fun _ hkey => absurd hkey List.not_mem_nil, hzero, hzero, hzero⟩

end

/-- Nothing is lost in any run, and a state is rebuilt as it was if every call settles. -/
theorem metrics_kept (F : Type*) [Money F] [LawfulMoney F] (tables : CharTables)
    (lower : Text → Text) (hother : IsStable tables other) (calls : List (Text × MetricsCall)) :
    Conserved (runCalls tables lower (.empty : MetricsState F) calls) ∧
      Bounded (runCalls tables lower (.empty : MetricsState F) calls) ∧
        (SettlesAll tables lower (.empty : MetricsState F) calls →
          rebuild tables lower (runCalls tables lower (.empty : MetricsState F) calls) =
            runCalls tables lower .empty calls) := by
  obtain ⟨hconserved, hbounded, hsettled⟩ := runCalls_kept lower hother calls
    (conserved_empty : Conserved (.empty : MetricsState F)) bounded_empty
  exact ⟨hconserved, hbounded, fun hall => rebuild_eq_self hbounded (hsettled settled_empty hall)⟩

def integer (value : ℤ) : Value := .number (.int value)

/-- A request for one model, with a waste signal. -/
def requestWith (signal : String) : RequestMetrics where
  provider := .str (text "anthropic")
  stack := .str (text "python")
  model := .str (text "opus")
  inputTokens := integer 10
  outputTokens := integer 5
  attemptedInputTokens := integer 12
  tokensSaved := integer 2
  cached := true
  recordStack := true
  cacheReadTokens := integer 0
  cacheWriteTokens := integer 0
  cacheWrite5mTokens := integer 0
  cacheWrite1hTokens := integer 0
  uncachedInputTokens := integer 0
  inputUsd := integer 1
  compressionSavingsUsd := integer 0
  cacheSavingsUsd := integer 0
  wasteSignals := .dict [(text signal, integer 3)]

def requestCall (signal : String) : Text × MetricsCall :=
  (text "2025-01-01T00:00:00Z", .recordRequest (requestWith signal))

/-- A waste signal that is not known is read again as another bucket. -/
theorem unknown_signal_moves : ¬∀ calls : List (Text × MetricsCall),
    rebuild asciiTables asciiLower
        (runCalls asciiTables asciiLower (.empty : MetricsState ℚ) calls) =
      runCalls asciiTables asciiLower .empty calls := by
  intro hrebuild
  have hkeys := congrArg (fun state => state.wasteSignals.keys) (hrebuild [requestCall "padding"])
  exact absurd hkeys (by decide +kernel)

theorem metrics_kept_twice :
    let calls := [requestCall "base64", requestCall "reread"]
    Conserved (runCalls asciiTables asciiLower (.empty : MetricsState ℚ) calls) ∧
      Bounded (runCalls asciiTables asciiLower (.empty : MetricsState ℚ) calls) ∧
        rebuild asciiTables asciiLower
            (runCalls asciiTables asciiLower (.empty : MetricsState ℚ) calls) =
          runCalls asciiTables asciiLower .empty calls := by
  have hother : IsStable asciiTables other := by decide +kernel
  obtain ⟨hconserved, hbounded, hrebuild⟩ := metrics_kept ℚ asciiTables asciiLower hother
    [requestCall "base64", requestCall "reread"]
  exact ⟨hconserved, hbounded, hrebuild ⟨by decide +kernel, by decide +kernel, trivial⟩⟩

end Legroom.PersistentMetrics
