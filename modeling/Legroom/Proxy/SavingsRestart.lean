import Legroom.Proxy.SavingsTracker

/-!
# Restarts of the savings tracker

The state is saved as it is.  When it is loaded, it is rebuilt field by field, and what a
field does not have is filled in.
-/

namespace Legroom.SavingsTracker

open Python

/-! ## Loading -/

section

variable (tables : CharTables) (config : Config)

/-- Counts are read as they are, and amounts are rounded. -/
def Amount.load (amount : Amount) : Amount := ⟨amount.tokens, Usd.round amount.usd.value⟩

def loadTime (written : Second) : Second := toUtcIso (parseTimestamp written)

/-- Counters that are missing are zero. -/
def normalizeHistoryEntry (point : HistoryPoint) : HistoryPoint where
  timestamp := loadTime point.timestamp
  provider := normalizeProvider tables (some point.provider)
  model := normalizeModel tables (some point.model)
  compression := point.compression.load
  cacheRead := some (outputSaved point.cacheRead).load
  input := point.input.load
  output := some (outputSaved point.output).load

/-- A session that ends before it starts is given up. -/
def normalizeDisplaySession (session : DisplaySession) : DisplaySession :=
  match session.startedAt, session.lastActivityAt with
  | some startedAt, some lastActivityAt =>
      if parseTimestamp lastActivityAt < parseTimestamp startedAt then .empty
      else
        { requests := session.requests
          compression := session.compression.load
          cacheRead := session.cacheRead.load
          input := session.input.load
          savingsPercent := savingsPercent session.compression.tokens session.input.tokens
          startedAt := some (loadTime startedAt)
          lastActivityAt := some (loadTime lastActivityAt) }
  | _, _ => .empty

def Counters.load (entry : Counters) : Counters :=
  ⟨entry.requests, entry.compression.load, entry.input.load⟩

def normalizeByModel (raw : Dict Text Counters) : Dict Text Counters :=
  raw.entries.foldl (fun byModel entry =>
    byModel.set (normalizeModel tables (some entry.1)) entry.2.load) .empty

def ProjectEntry.load (entry : ProjectEntry) : ProjectEntry :=
  ⟨entry.toCounters.load, entry.lastActivityAt.map loadTime⟩

def loadProject (projects : Dict Text ProjectEntry) (entry : Text × ProjectEntry) :
    Dict Text ProjectEntry :=
  match sanitizeProjectName tables (some entry.1) with
  | some name => projects.set name entry.2.load
  | none => projects

theorem nodup_take_projects (projects : Dict Text ProjectEntry) (limit : ℕ) :
    (((projects.entries.mergeSort fun left right => !evictedBefore left.2 right.2).take
      limit).map Prod.fst).Nodup := by
  have hsorted : ((projects.entries.mergeSort fun left right =>
      !evictedBefore left.2 right.2).map Prod.fst).Nodup :=
    ((List.mergeSort_perm projects.entries _).map Prod.fst).nodup_iff.mpr projects.nodup
  exact hsorted.sublist ((List.take_sublist limit _).map _)

/-- The projects that saved most are kept. -/
def normalizeProjects (raw : Dict Text ProjectEntry) : Dict Text ProjectEntry :=
  let projects := raw.entries.foldl (loadProject tables) .empty
  if defaultMaxProjects < projects.size then
    ⟨(projects.entries.mergeSort fun left right => !evictedBefore left.2 right.2).take
      defaultMaxProjects, nodup_take_projects projects defaultMaxProjects⟩
  else projects

/-- The larger of the counter and the one of the last checkpoint. -/
def Amount.loadAbove (amount : Amount) (last : Option Amount) : Amount :=
  match last with
  | some last => ⟨max amount.tokens last.tokens, Usd.round (max amount.usd.value last.usd.value)⟩
  | none => amount.load

/-- There are no output counters among the lifetime counters that are loaded. -/
def loadLifetime (lifetime : Lifetime) (last : Option HistoryPoint) : Lifetime where
  requests := lifetime.requests
  compression := lifetime.compression.loadAbove (last.map HistoryPoint.compression)
  cacheRead := lifetime.cacheRead.load
  input := lifetime.input.loadAbove (last.map HistoryPoint.input)
  output := none

/-- The time of the last checkpoint is the time of loading. -/
def trimLoaded (history : List HistoryPoint) : List HistoryPoint :=
  match history.getLast? with
  | some last => trimHistory config history (parseTimestamp last.timestamp)
  | none => history

def sanitizeState (raw : SavingsState) : SavingsState :=
  let history := (raw.history.map (normalizeHistoryEntry tables)).mergeSort fun left right =>
    left.timestamp ≤ right.timestamp
  { lifetime := loadLifetime raw.lifetime history.getLast?
    displaySession := normalizeDisplaySession raw.displaySession
    history := trimLoaded config history
    projects := normalizeProjects tables raw.projects
    byModel := normalizeByModel tables raw.byModel }

end

/-! ## What is reported -/

def HistoryPoint.reported (point : HistoryPoint) : HistoryPoint :=
  { point with
    cacheRead := some (outputSaved point.cacheRead)
    output := some (outputSaved point.output) }

def Lifetime.reported (lifetime : Lifetime) : Lifetime :=
  { lifetime with output := some (outputSaved lifetime.output) }

/-- The state with the counters that are missing as zero. -/
def SavingsState.reported (state : SavingsState) : SavingsState :=
  { state with
    lifetime := state.lifetime.reported
    history := state.history.map HistoryPoint.reported }

section

variable (tables : CharTables) (litellm : Option Litellm) (config : Config)

theorem map_trimHistory (change : HistoryPoint → HistoryPoint)
    (hchange : ∀ point, (change point).timestamp = point.timestamp) (history : List HistoryPoint)
    (reference : ℤ) : (trimHistory config history reference).map change =
      trimHistory config (history.map change) reference := by
  have hfilter : (history.map change).filter (isYoung config reference) =
      (history.filter (isYoung config reference)).map change := by
    rw [List.filter_map]
    congr 2
    funext point
    rw [Function.comp_apply, isYoung, hchange]
    rfl
  simp only [trimHistory, hfilter, List.length_map, List.isEmpty_map]
  split_ifs
  all_goals simp only [List.map_drop, List.length_map, List.length_drop]

/-- What a call reports depends on what was reported before. -/
theorem reported_record (state : SavingsState) (call : SavingsCall) :
    (record tables litellm config state call).reported =
      (record tables litellm config state.reported call).reported := by
  have happend : ∀ point : HistoryPoint,
      (trimHistory config (state.history ++ [point]) call.time).map HistoryPoint.reported =
        (trimHistory config (state.history.map HistoryPoint.reported ++ [point]) call.time).map
          HistoryPoint.reported := by
    intro point
    rw [map_trimHistory config HistoryPoint.reported fun _ => rfl,
      map_trimHistory config HistoryPoint.reported fun _ => rfl, List.map_append, List.map_append,
      List.map_map]
    rfl
  have hkept : state.history.map HistoryPoint.reported =
      (state.history.map HistoryPoint.reported).map HistoryPoint.reported := by
    rw [List.map_map]
    rfl
  obtain ⟨recording, time⟩ := call
  cases recording with
  | compressionSavings savings =>
      simp only [record, recordCompressionSavings]
      split_ifs
      · exact congrArg (fun history => SavingsState.mk _ _ history _ _) hkept
      · exact congrArg (fun history => SavingsState.mk _ _ history _ _) (happend _)
  | request request =>
      simp only [record, recordRequest]
      split_ifs
      · exact congrArg (fun history => SavingsState.mk _ _ history _ _) (happend _)
      · exact congrArg (fun history => SavingsState.mk _ _ history _ _) hkept

/-! ## Trimming -/

/-- Nothing in the history is too old, and there are not too many points. -/
def IsTrimmed (reference : ℤ) (history : List HistoryPoint) : Prop :=
  (0 < config.maxHistoryAgeDays → ∀ point ∈ history, isYoung config reference point = true) ∧
  (0 < config.maxHistoryPoints → history.length ≤ config.maxHistoryPoints)

variable {config}
variable {reference : ℤ} {history : List HistoryPoint}

theorem IsTrimmed.mono {earlier : ℤ} (htrimmed : IsTrimmed config reference history)
    (hearlier : earlier ≤ reference) : IsTrimmed config earlier history := by
  refine ⟨fun hage point hpoint => ?_, htrimmed.2⟩
  have hyoung := of_decide_eq_true (htrimmed.1 hage point hpoint)
  exact decide_eq_true (by omega)

theorem IsTrimmed.trimHistory_eq (htrimmed : IsTrimmed config reference history) :
    trimHistory config history reference = history := by
  have hdrop : 0 < config.maxHistoryPoints →
      history.drop (history.length - config.maxHistoryPoints) = history := fun hpoints => by
    rw [Nat.sub_eq_zero_of_le (htrimmed.2 hpoints), List.drop_zero]
  simp only [trimHistory]
  by_cases hage : 0 < config.maxHistoryAgeDays
  · have hyoung : (if history.isEmpty = true then history.drop (history.length - 1) else history) =
        history := by
      cases history with
      | nil => rfl
      | cons point history => rfl
    rw [if_pos hage, List.filter_eq_self.mpr (htrimmed.1 hage), hyoung]
    split_ifs with hpoints
    · exact hdrop hpoints
    · rfl
  · rw [if_neg hage]
    split_ifs with hpoints
    · exact hdrop hpoints
    · rfl

variable {point : HistoryPoint}

theorem mem_of_mem_trimHistory (hpoint : point ∈ trimHistory config history reference) :
    point ∈ history := by
  simp only [trimHistory] at hpoint
  split_ifs at hpoint
  · exact List.mem_of_mem_drop (List.mem_of_mem_drop hpoint)
  · exact List.mem_of_mem_filter (List.mem_of_mem_drop hpoint)
  · exact List.mem_of_mem_drop hpoint
  · exact List.mem_of_mem_drop hpoint
  · exact List.mem_of_mem_filter hpoint
  · exact hpoint

/-- A point of now is kept, as the last one of a trimmed history. -/
theorem isTrimmed_trimHistory (config : Config) (history : List HistoryPoint)
    (hpoint : point.timestamp = toUtcIso reference) :
    IsTrimmed config reference (trimHistory config (history ++ [point]) reference) ∧
      (trimHistory config (history ++ [point]) reference).getLast? = some point := by
  -- what is young enough ends with the point
  obtain ⟨kept, hkept, hyoung⟩ : ∃ kept,
      (0 < config.maxHistoryAgeDays →
        ∀ old ∈ kept ++ [point], isYoung config reference old = true) ∧
      trimHistory config (history ++ [point]) reference =
        if 0 < config.maxHistoryPoints then
          (kept ++ [point]).drop ((kept ++ [point]).length - config.maxHistoryPoints)
        else kept ++ [point] := by
    by_cases hage : 0 < config.maxHistoryAgeDays
    · have hnow : isYoung config reference point = true := by
        refine decide_eq_true ?_
        rw [hpoint, parseTimestamp, toUtcIso, second]
        omega
      refine ⟨history.filter (isYoung config reference), fun _ old hold => ?_, ?_⟩
      · rcases List.mem_append.mp hold with hold | hold
        · exact (List.mem_filter.mp hold).2
        · rw [List.mem_singleton.mp hold]
          exact hnow
      · have hfilter : (history ++ [point]).filter (isYoung config reference) =
            history.filter (isYoung config reference) ++ [point] := by
          rw [List.filter_append, List.filter_cons_of_pos hnow, List.filter_nil]
        have hfull : (history.filter (isYoung config reference) ++ [point]).isEmpty = false :=
          List.isEmpty_eq_false_iff.mpr (List.append_ne_nil_of_right_ne_nil _ (List.cons_ne_nil _ _))
        simp only [trimHistory, if_pos hage, hfilter, hfull, Bool.false_eq_true, if_false]
    · refine ⟨history, fun hpositive => absurd hpositive hage, ?_⟩
      simp only [trimHistory, if_neg hage]
  rw [hyoung]
  by_cases hpoints : 0 < config.maxHistoryPoints
  · have hle : (kept ++ [point]).length - config.maxHistoryPoints ≤ kept.length := by
      rw [List.length_append, List.length_singleton]
      omega
    rw [if_pos hpoints]
    refine ⟨⟨fun hage old hold => hkept hage old (List.mem_of_mem_drop hold), fun _ => ?_⟩, ?_⟩
    · rw [List.length_drop]
      omega
    · rw [List.drop_append_of_le_length hle, List.getLast?_concat]
  · rw [if_neg hpoints]
    exact ⟨⟨hkept, fun hpositive => absurd hpositive hpoints⟩, List.getLast?_concat⟩

end

/-!
## Runs with restarts

A run in which the tracker is restarted between calls is compared with the run of the same
calls without a restart.
-/

section

variable (tables : CharTables) (litellm : Option Litellm) (config : Config)

/-! ## What every state keeps -/

/-- The session has not begun, or it is complete. -/
def IsSession (session : DisplaySession) : Prop :=
  session = .empty ∨
    (session.startedAt.isSome ∧ session.lastActivityAt.isSome ∧
      session.savingsPercent = savingsPercent session.compression.tokens session.input.tokens)

/-- The labels of a checkpoint were normalized. -/
def IsLabelled (point : HistoryPoint) : Prop :=
  normalizeProvider tables (some point.provider) = point.provider ∧
    normalizeModel tables (some point.model) = point.model

structure Sound (state : SavingsState) : Prop where
  below : ∀ point ∈ state.history.getLast?,
    point.compression ≤ state.lifetime.compression ∧ point.input ≤ state.lifetime.input
  labels : ∀ point ∈ state.history, IsLabelled tables point
  trimmed : ∀ point ∈ state.history.getLast?, ∃ reference,
    toUtcIso reference = point.timestamp ∧ IsTrimmed config reference state.history
  session : IsSession state.displaySession
  models : ∀ key ∈ state.byModel.keys, normalizeModel tables (some key) = key
  projects : state.projects.size ≤ defaultMaxProjects

theorem sound_defaultState : Sound tables config defaultState where
  below _ hpoint := by cases hpoint
  labels _ hpoint := absurd hpoint List.not_mem_nil
  trimmed _ hpoint := by cases hpoint
  session := .inl rfl
  models _ hkey := absurd hkey List.not_mem_nil
  projects := Nat.zero_le _

theorem isSession_recordSession (session : DisplaySession) (call : Request) (input next : Amount)
    (time : ℤ) : IsSession (recordSession litellm config session call input next time) := by
  refine .inr ⟨?_, rfl, rfl⟩
  show ((currentSession config session time).startedAt.or _).isSome
  rw [Option.isSome_or]
  exact Bool.or_true _

variable {byModel : Dict Text Counters}

theorem normalized_recordByModel (htables : IsPlain tables)
    (hmodels : ∀ key ∈ byModel.keys, normalizeModel tables (some key) = key) (model : Text)
    (delta : Delta) :
    ∀ key ∈ (recordByModel tables byModel model delta).keys,
      normalizeModel tables (some key) = key := by
  intro key hkey
  rcases Dict.mem_keys_set.mp hkey with rfl | hold
  · exact normalizeLabel_normalizeLabel tables htables (some model)
  · exact hmodels key hold

/-- The fold takes one of the entries. -/
theorem foldl_choice_mem {Entry : Type*} (better : Entry → Entry → Bool) (first : Entry)
    (rest : List Entry) :
    rest.foldl (fun best entry => if better entry best then entry else best) first ∈
      first :: rest := by
  induction rest generalizing first with
  | nil => exact List.mem_cons_self
  | cons entry rest ih =>
      rw [List.foldl_cons]
      rcases List.mem_cons.mp (ih (if better entry first then entry else first)) with hhead | htail
      · rw [hhead]
        split_ifs
        · exact List.mem_cons_of_mem _ List.mem_cons_self
        · exact List.mem_cons_self
      · exact List.mem_cons_of_mem _ (List.mem_cons_of_mem _ htail)

variable {projects : Dict Text ProjectEntry}

theorem size_evictProject (name : Text) (hmany : 1 < projects.size) :
    (evictProject projects name).size + 1 = projects.size := by
  have hothers := Dict.size_erase projects name
  rw [evictProject]
  cases hlist : projects.entries.filter fun entry => decide (entry.1 ≠ name) with
  | nil =>
      have hnone : (projects.erase name).size = 0 := congrArg List.length hlist
      rw [hnone] at hothers
      split_ifs at hothers
      · omega
      · omega
  | cons first rest =>
      have hmem := foldl_choice_mem (fun left right => evictedBefore left.2 right.2) first rest
      rw [← hlist] at hmem
      have hkey : (rest.foldl (fun best entry =>
          if evictedBefore entry.2 best.2 then entry else best) first).1 ∈ projects.keys :=
        List.mem_map_of_mem (List.mem_of_mem_filter hmem)
      have hsize := Dict.size_erase projects (rest.foldl (fun best entry =>
        if evictedBefore entry.2 best.2 then entry else best) first).1
      rw [if_pos hkey] at hsize
      exact hsize

theorem size_recordProject (hsize : projects.size ≤ defaultMaxProjects) (project : Option Text)
    (time : ℤ) (delta : Delta) :
    (recordProject tables projects project time delta).size ≤ defaultMaxProjects := by
  cases hname : sanitizeProjectName tables project with
  | none =>
      simp only [recordProject, hname]
      exact hsize
  | some name =>
      have hgrown := Dict.size_set_le projects name
        (⟨((projects.get? name).getD .empty).toCounters.add delta, some (toUtcIso time)⟩ :
          ProjectEntry)
      simp only [recordProject, hname]
      split_ifs with hlarge
      · have hevict := size_evictProject name (Nat.lt_of_le_of_lt (by decide) hlarge)
        omega
      · exact Nat.le_of_not_lt hlarge

variable {tables litellm config}
variable {state : SavingsState}
variable {point : HistoryPoint}

/-- A checkpoint is made now, with labels that are normalized. -/
theorem isLabelled_checkpoint (htables : IsPlain tables) {call : SavingsCall}
    (hpoint : checkpoint tables litellm state call = some point) :
    point.timestamp = toUtcIso call.time ∧ IsLabelled tables point := by
  rcases checkpoint_cases tables litellm hpoint with
    ⟨savings, -, -, rfl⟩ | ⟨request, -, -, rfl⟩
  · exact ⟨rfl, normalizeLabel_normalizeLabel tables htables savings.provider,
      normalizeLabel_normalizeLabel tables htables (some savings.model)⟩
  · exact ⟨rfl, normalizeLabel_normalizeLabel tables htables request.provider,
      normalizeLabel_normalizeLabel tables htables (some request.model)⟩

/-- What is neither a lifetime counter nor the history. -/
theorem Sound.parts_record (litellm : Option Litellm) (htables : IsPlain tables)
    (hsound : Sound tables config state) (call : SavingsCall) :
    IsSession (record tables litellm config state call).displaySession ∧
      (∀ key ∈ (record tables litellm config state call).byModel.keys,
        normalizeModel tables (some key) = key) ∧
      (record tables litellm config state call).projects.size ≤ defaultMaxProjects := by
  obtain ⟨recording, time⟩ := call
  cases recording with
  | compressionSavings savings =>
      simp only [record, recordCompressionSavings]
      split_ifs
      · exact ⟨hsound.session, hsound.models, hsound.projects⟩
      · exact ⟨hsound.session, normalized_recordByModel tables htables hsound.models _ _,
          hsound.projects⟩
  | request request =>
      exact ⟨isSession_recordSession litellm config _ _ _ _ _,
        normalized_recordByModel tables htables hsound.models _ _,
        size_recordProject tables hsound.projects _ _ _⟩

theorem Sound.record (htables : IsPlain tables) (hsound : Sound tables config state)
    (call : SavingsCall) : Sound tables config (record tables litellm config state call) := by
  obtain ⟨hsession, hmodels, hprojects⟩ :=
    hsound.parts_record litellm htables call
  have hhistory := history_record tables litellm config state call
  have hlifetime := lifetime_record tables litellm config state call
  have hle := le_lifetimeAfter litellm state.lifetime call.recording
  rw [← hlifetime] at hle
  cases hpoint : checkpoint tables litellm state call with
  | none =>
      rw [hpoint] at hhistory
      refine ⟨fun point hlast => ?_, ?_, ?_, hsession, hmodels, hprojects⟩
      · rw [hhistory] at hlast
        have hbelow := hsound.below point hlast
        exact ⟨hbelow.1.trans hle.1, hbelow.2.trans hle.2⟩
      · rw [hhistory]
        exact hsound.labels
      · rw [hhistory]
        exact hsound.trimmed
  | some point =>
      obtain ⟨htimestamp, hlabelled⟩ := isLabelled_checkpoint htables hpoint
      have hcounters := counters_checkpoint tables litellm hpoint
      rw [← hlifetime] at hcounters
      rw [hpoint] at hhistory
      change _ = trimHistory config (state.history ++ [point]) call.time at hhistory
      obtain ⟨htrimmed, hlast⟩ := isTrimmed_trimHistory config state.history htimestamp
      rw [← hhistory] at htrimmed hlast
      refine ⟨fun found hfound => ?_, fun found hfound => ?_, fun found hfound => ?_, hsession,
        hmodels, hprojects⟩
      · obtain rfl := Option.some.inj (hlast.symm.trans hfound)
        exact ⟨hcounters.1.le, hcounters.2.le⟩
      · rw [hhistory] at hfound
        rcases List.mem_append.mp (mem_of_mem_trimHistory hfound) with hold | hnew
        · exact hsound.labels found hold
        · exact List.mem_singleton.mp hnew ▸ hlabelled
      · obtain rfl := Option.some.inj (hlast.symm.trans hfound)
        exact ⟨call.time, htimestamp.symm, htrimmed⟩

/-! ## A restart -/

theorem load_amount (amount : Amount) : amount.load = amount :=
  Amount.ext rfl (Usd.round_value _)

theorem loadTime_eq (written : Second) : loadTime written = written :=
  Int.mul_ediv_cancel written (by decide)

theorem Usd.value_le {left right : Usd} (hle : left ≤ right) : left.value ≤ right.value := by
  rw [Usd.value, Usd.value]
  have : left.micros ≤ right.micros := hle
  gcongr

theorem loadAbove_of_le {amount : Amount} {last : Option Amount}
    (hlast : ∀ found ∈ last, found ≤ amount) : amount.loadAbove last = amount := by
  cases last with
  | none => exact load_amount amount
  | some found =>
      have hle := hlast found rfl
      refine Amount.ext (max_eq_left hle.1) ?_
      show Usd.round (max amount.usd.value found.usd.value) = amount.usd
      rw [max_eq_left (Usd.value_le hle.2), Usd.round_value]

theorem load_counters (entry : Counters) : entry.load = entry := by
  rw [Counters.load, load_amount, load_amount]

theorem load_project (entry : ProjectEntry) : entry.load = entry := by
  have htime : entry.lastActivityAt.map loadTime = entry.lastActivityAt := by
    cases entry.lastActivityAt with
    | none => rfl
    | some written => exact congrArg some (loadTime_eq written)
  rw [ProjectEntry.load, load_counters, htime]

theorem normalizeByModel_eq
    (hmodels : ∀ key ∈ byModel.keys, normalizeModel tables (some key) = key) :
    normalizeByModel tables byModel = byModel := by
  refine Dict.foldl_set_eq_self fun before entry hentry _ => ?_
  rw [hmodels entry.1 (List.mem_map_of_mem hentry), load_counters]

theorem normalizeProjects_eq
    (hnames : ∀ name ∈ projects.keys, sanitizeProjectName tables (some name) = some name)
    (hsize : projects.size ≤ defaultMaxProjects) :
    normalizeProjects tables projects = projects := by
  have hloaded : projects.entries.foldl (loadProject tables) .empty = projects := by
    refine Dict.foldl_set_eq_self fun before entry hentry _ => ?_
    simp only [loadProject, hnames entry.1 (List.mem_map_of_mem hentry), load_project]
  simp only [normalizeProjects, hloaded, if_neg (Nat.not_lt.mpr hsize)]

/-- A session that does not end before it starts is loaded as it is. -/
theorem normalizeDisplaySession_eq {session : DisplaySession} (hsession : IsSession session)
    (horder : ∀ startedAt ∈ session.startedAt, ∀ lastActivityAt ∈ session.lastActivityAt,
      startedAt ≤ lastActivityAt) : normalizeDisplaySession session = session := by
  rcases hsession with rfl | ⟨hstarted, hactive, hpercent⟩
  · rfl
  · obtain ⟨startedAt, hstarted⟩ := Option.isSome_iff_exists.mp hstarted
    obtain ⟨lastActivityAt, hactive⟩ := Option.isSome_iff_exists.mp hactive
    have hle : parseTimestamp startedAt ≤ parseTimestamp lastActivityAt :=
      mul_le_mul_of_nonneg_right (horder startedAt hstarted lastActivityAt hactive) (by decide)
    simp only [normalizeDisplaySession, hstarted, hactive, if_neg (not_lt.mpr hle), load_amount,
      loadTime_eq]
    rw [← hpercent, ← hstarted, ← hactive]

theorem normalizeHistoryEntry_eq (hlabelled : IsLabelled tables point) :
    normalizeHistoryEntry tables point = point.reported := by
  rw [normalizeHistoryEntry, hlabelled.1, hlabelled.2, loadTime_eq, load_amount, load_amount,
    load_amount, load_amount]
  rfl

variable (tables) in
/-- What is saved here comes back: no output was saved, the history is in order, the session
does not end before it starts, and the names of the projects are sanitized once and for all. -/
def IsRestartable (state : SavingsState) : Prop :=
  outputSaved state.lifetime.output = 0 ∧
    state.history.Pairwise (fun left right => left.timestamp ≤ right.timestamp) ∧
    (∀ startedAt ∈ state.displaySession.startedAt,
      ∀ lastActivityAt ∈ state.displaySession.lastActivityAt, startedAt ≤ lastActivityAt) ∧
    ∀ name ∈ state.projects.keys, sanitizeProjectName tables (some name) = some name

instance (state : SavingsState) : Decidable (IsRestartable tables state) :=
  inferInstanceAs (Decidable (_ ∧ List.Pairwise (fun left right : HistoryPoint =>
    left.timestamp ≤ right.timestamp) _ ∧ _ ∧ _))

/-- The state that is loaded, apart from the output counters. -/
theorem sanitizeState_eq (hsound : Sound tables config state)
    (hrestartable : IsRestartable tables state) :
    sanitizeState tables config state =
      { state with
        lifetime := { state.lifetime with output := none }
        history := state.history.map HistoryPoint.reported } := by
  obtain ⟨-, hordered, hsession, hnames⟩ := hrestartable
  have hhistory : (state.history.map (normalizeHistoryEntry tables)).mergeSort
      (fun left right => decide (left.timestamp ≤ right.timestamp)) =
        state.history.map HistoryPoint.reported := by
    rw [List.map_congr_left fun point hpoint =>
      normalizeHistoryEntry_eq (hsound.labels point hpoint)]
    refine List.mergeSort_of_pairwise (List.pairwise_map.mpr (hordered.imp fun hle => ?_))
    exact decide_eq_true hle
  have hlast : (state.history.map HistoryPoint.reported).getLast? =
      state.history.getLast?.map HistoryPoint.reported := List.getLast?_map
  have hlifetime : loadLifetime state.lifetime (state.history.getLast?.map HistoryPoint.reported) =
      { state.lifetime with output := none } := by
    rw [loadLifetime, load_amount, Option.map_map, Option.map_map]
    rw [loadAbove_of_le, loadAbove_of_le]
    · intro found hfound
      obtain ⟨point, hpoint, rfl⟩ := Option.map_eq_some_iff.mp hfound
      exact (hsound.below point hpoint).2
    · intro found hfound
      obtain ⟨point, hpoint, rfl⟩ := Option.map_eq_some_iff.mp hfound
      exact (hsound.below point hpoint).1
  have htrimmed : trimLoaded config (state.history.map HistoryPoint.reported) =
      state.history.map HistoryPoint.reported := by
    rw [trimLoaded, hlast]
    cases hfound : state.history.getLast? with
    | none => rfl
    | some point =>
        obtain ⟨reference, htimestamp, htrimmed⟩ := hsound.trimmed point hfound
        have hearlier : parseTimestamp point.timestamp ≤ reference := by
          rw [← htimestamp]
          exact Int.ediv_mul_le reference (by decide)
        show trimHistory config (state.history.map HistoryPoint.reported)
          (parseTimestamp point.timestamp) = _
        rw [← map_trimHistory config HistoryPoint.reported fun _ => rfl,
          (htrimmed.mono hearlier).trimHistory_eq]
  simp only [sanitizeState, hhistory, hlast, hlifetime, htrimmed,
    normalizeDisplaySession_eq hsound.session hsession, normalizeProjects_eq hnames hsound.projects,
    normalizeByModel_eq hsound.models]

theorem Sound.sanitizeState (hsound : Sound tables config state)
    (hrestartable : IsRestartable tables state) :
    Sound tables config (sanitizeState tables config state) := by
  rw [sanitizeState_eq hsound hrestartable]
  have hlast : (state.history.map HistoryPoint.reported).getLast? =
      state.history.getLast?.map HistoryPoint.reported := List.getLast?_map
  refine ⟨fun found hfound => ?_, fun found hfound => ?_, fun found hfound => ?_, hsound.session,
    hsound.models, hsound.projects⟩
  · rw [hlast] at hfound
    obtain ⟨point, hpoint, rfl⟩ := Option.map_eq_some_iff.mp hfound
    exact hsound.below point hpoint
  · obtain ⟨point, hpoint, rfl⟩ := List.mem_map.mp hfound
    exact hsound.labels point hpoint
  · rw [hlast] at hfound
    obtain ⟨point, hpoint, rfl⟩ := Option.map_eq_some_iff.mp hfound
    obtain ⟨reference, htimestamp, hyoung, hfew⟩ := hsound.trimmed point hpoint
    refine ⟨reference, htimestamp, fun hage old hold => ?_, fun hpoints => ?_⟩
    · obtain ⟨before, hbefore, rfl⟩ := List.mem_map.mp hold
      exact hyoung hage before hbefore
    · rw [List.length_map]
      exact hfew hpoints

theorem reported_sanitizeState (hsound : Sound tables config state)
    (hrestartable : IsRestartable tables state) :
    (sanitizeState tables config state).reported = state.reported := by
  have hnone : ({ state.lifetime with output := none } : Lifetime).reported =
      state.lifetime.reported := by
    rw [Lifetime.reported, Lifetime.reported, hrestartable.1]
    rfl
  rw [sanitizeState_eq hsound hrestartable, SavingsState.reported, SavingsState.reported, hnone,
    List.map_map]
  rfl

/-! ## Runs -/

inductive TrackerStep where
  | call (call : SavingsCall)
  | restart

section

variable (tables : CharTables) (litellm : Option Litellm) (config : Config)

def trackerStep (state : SavingsState) : TrackerStep → SavingsState
  | .call call => record tables litellm config state call
  | .restart => sanitizeState tables config state

def runSteps (state : SavingsState) (steps : List TrackerStep) : SavingsState :=
  steps.foldl (trackerStep tables litellm config) state

def callsOf (steps : List TrackerStep) : List SavingsCall :=
  steps.filterMap fun step =>
    match step with
    | .call call => some call
    | .restart => none

/-- The tracker is restarted only in states that come back. -/
def EveryRestart : SavingsState → List TrackerStep → Prop
  | _, [] => True
  | state, .call call :: steps =>
      EveryRestart (record tables litellm config state call) steps
  | state, .restart :: steps =>
      IsRestartable tables state ∧ EveryRestart (sanitizeState tables config state) steps

instance decidableEveryRestart :
    ∀ state steps, Decidable (EveryRestart tables litellm config state steps)
  | _, [] => .isTrue trivial
  | _, .call _ :: steps => decidableEveryRestart _ steps
  | _, .restart :: steps => @instDecidableAnd _ _ _ (decidableEveryRestart _ steps)

end

/-- Runs from states that report the same. -/
theorem reported_runSteps (htables : IsPlain tables) {steps : List TrackerStep}
    {restarted plain : SavingsState} (hsound : Sound tables config restarted)
    (hsame : restarted.reported = plain.reported)
    (hsteps : EveryRestart tables litellm config restarted steps) :
    (runSteps tables litellm config restarted steps).reported =
      (runCalls tables litellm config plain (callsOf steps)).reported := by
  induction steps generalizing restarted plain with
  | nil => exact hsame
  | cons step steps ih =>
      cases step with
      | call call =>
          refine ih (hsound.record htables call) ?_ hsteps
          calc
            (record tables litellm config restarted call).reported
              = (record tables litellm config restarted.reported call).reported :=
              reported_record tables litellm config restarted call
            _ = (record tables litellm config plain.reported call).reported := by rw [hsame]
            _ = (record tables litellm config plain call).reported :=
              (reported_record tables litellm config plain call).symm
      | restart =>
          refine ih (hsound.sanitizeState hsteps.1) ?_ hsteps.2
          exact (reported_sanitizeState hsound hsteps.1).trans hsame

variable (tables litellm config) in
/-- A run with restarts reports what the run without them reports. -/
theorem restarts_transparent (htables : IsPlain tables) (steps : List TrackerStep)
    (hsteps : EveryRestart tables litellm config defaultState steps) :
    (runSteps tables litellm config defaultState steps).reported =
      (runCalls tables litellm config defaultState (callsOf steps)).reported :=
  reported_runSteps htables (sound_defaultState tables config) rfl hsteps

end

/-! ## Restarts that are and are not noticed -/

def keptConfig : Config := ⟨2, 30, 60⟩

def keptRequest (project : String) (output : ℤ) : Request where
  model := text "gpt-4o"
  inputTokens := 100
  tokensSaved := 20
  outputTokensSaved := output
  provider := some (text "openai")
  project := some (text project)
  cacheReadTokens := 0
  cacheWriteTokens := 0
  uncachedInputTokens := 0
  totalInputTokens := none
  totalInputCostUsd := none

def keptSavings : CompressionSavings := ⟨text "gpt-4o", 7, some (text "openai"), none, none⟩

/-- The history has reached its bound when the tracker is restarted. -/
def keptSteps : List TrackerStep :=
  [.call ⟨.request (keptRequest "app" 0), 500000⟩, .restart,
    .call ⟨.compressionSavings keptSavings, 2 * second⟩,
    .call ⟨.request (keptRequest "web" 0), 3 * second⟩, .restart,
    .call ⟨.request (keptRequest "app" 5), 4 * second⟩]

theorem keptSteps_transparent :
    (runSteps asciiTables none keptConfig defaultState keptSteps).reported =
      (runCalls asciiTables none keptConfig defaultState (callsOf keptSteps)).reported :=
  restarts_transparent asciiTables none keptConfig (by decide +kernel) keptSteps
    (by decide +kernel)

/-- The output that was saved is forgotten. -/
theorem output_forgotten :
    (runSteps asciiTables none keptConfig defaultState
        [.call ⟨.request (keptRequest "app" 10), 0⟩, .restart]).reported.lifetime.output ≠
      (runCalls asciiTables none keptConfig defaultState
        [⟨.request (keptRequest "app" 10), 0⟩]).reported.lifetime.output := by
  decide +kernel

end Legroom.SavingsTracker
