import Legroom.Transforms.BlockDecisionRuns
import Legroom.Transforms.ReversibleGate

/-!
# Tool outputs over runs

A tool output is shown as a result that is cached for its key, as its own compression, or as a
read that was lightly summarized.
-/

namespace Legroom.LossyRouter

open Python LosslessCompaction LosslessRouter BlockDecisions

/-! ## Accepted compressions -/

section

variable {K S : Type} {router : Router K S}

def Accepted (router : Router K S) (block : Block S) : Prop :=
  ∃ minRatio ratio strategy, fresh router minRatio block = .accept ratio strategy

variable [DecidableEq K]
variable {state : RouterState K S}
variable {block : Block S}

theorem storeFresh_shown {turn : Turn} {shown : Text}
    (hshown : (storeFresh router turn block state).1 = some shown) :
    Accepted router block ∧ shown = (router.compress block).compressed := by
  rw [storeFresh] at hshown
  cases hfresh : fresh router turn.minRatio block with
  | accept ratio strategy =>
      rw [hfresh] at hshown
      exact ⟨⟨_, _, _, hfresh⟩, (Option.some_inj.mp hshown).symm⟩
  | unrecoverable => rw [hfresh] at hshown; cases hshown
  | ratioTooHigh => rw [hfresh] at hshown; cases hshown

/-- What a fresh compression may add to the results. -/
def MadeFrom (router : Router K S) (block : Block S) (key : K) (entry : CacheEntry S) : Prop :=
  key = router.key block ∧ entry.source = block ∧
    entry.compressed = (router.compress block).compressed ∧ Accepted router block

variable {key : K}

theorem storeFresh_results {turn : Turn} {entry : CacheEntry S}
    (hentry : (storeFresh router turn block state).2.results key = some entry) :
    state.results key = some entry ∨ MadeFrom router block key entry := by
  rw [storeFresh] at hentry
  cases hfresh : fresh router turn.minRatio block with
  | accept ratio strategy =>
      simp only [hfresh, freezeIf_results, putResult] at hentry
      by_cases hkey : key = router.key block
      · rw [hkey, Function.update_self] at hentry
        rw [← Option.some_inj.mp hentry]
        exact Or.inr ⟨hkey, rfl, rfl, _, _, _, hfresh⟩
      · rw [Function.update_of_ne hkey] at hentry
        exact Or.inl hentry
  | unrecoverable =>
      rw [hfresh] at hentry
      exact Or.inl hentry
  | ratioTooHigh =>
      simp only [hfresh, freezeIf_results] at hentry
      exact Or.inl hentry

/-! ## What a decision does -/

/-- The result that answers a decision, if one does. -/
def cached (router : Router K S) (current : Step S) (state : RouterState K S) :
    Option (CacheEntry S) :=
  if current.block.path = .message ∧ current.isMerge = true then none
  else (getResult router current.turn.now (router.key current.block) state).1

def Within (after state : RouterState K S) : Prop :=
  ∀ key entry, after.results key = some entry → state.results key = some entry

/-- A decision shows no compressed text, or the cached result, or a fresh compression. -/
inductive Outcome (router : Router K S) (current : Step S) (state : RouterState K S) :
    Option Emission × RouterState K S → Prop where
  | quiet {emission : Option Emission} {after : RouterState K S}
      (hemission : ∀ shown, emission ≠ some (some shown)) (hafter : Within after state) :
      Outcome router current state (emission, after)
  | served {entry : CacheEntry S} {after : RouterState K S}
      (hcached : cached router current state = some entry)
      (hentry : state.results (router.key current.block) = some entry)
      (hafter : Within after state) :
      Outcome router current state (some (some entry.compressed), after)
  | made {looked : RouterState K S} {emission : Option Emission}
      (hcached : cached router current state = none) (hlooked : Within looked state)
      (hemission : ∀ shown, emission = some (some shown) →
        (storeFresh router current.turn current.block looked).1 = some shown) :
      Outcome router current state
        (emission, (storeFresh router current.turn current.block looked).2)

variable {after : RouterState K S}

theorem within_freezeIf {condition verdict : Bool} (hafter : Within after state) :
    Within (freezeIf router condition key verdict after) state := fun other entry hentry =>
  hafter other entry (by rwa [freezeIf_results] at hentry)

theorem within_moveToSkip {now : ℚ} (hafter : Within after state) :
    Within (moveToSkip now key after) state := by
  intro other entry hentry
  by_cases hother : other = key
  · have hnone : (moveToSkip now key after).results other = none := by
      rw [hother]
      exact Function.update_self key none after.results
    rw [hnone] at hentry
    cases hentry
  · exact hafter other entry ((Shrinks.moveToSkip hother now after).results entry hentry)

/-- What a lookup finds, and the results behind it. -/
theorem looked_up (router : Router K S) (now : ℚ) (key : K) (state : RouterState K S) :
    (isSkipped router now key state = (true, state)) ∨
      ∃ after, isSkipped router now key state = (false, after) ∧ Within after state ∧
        ((∃ entry, getResult router now key after = (some entry, after) ∧
            state.results key = some entry ∧ (getResult router now key state).1 = some entry) ∨
          ∃ behind, getResult router now key after = (none, behind) ∧ Within behind state ∧
            (getResult router now key state).1 = none) := by
  rcases isSkipped_cases router now key state with
    ⟨since, -, hyes⟩ | ⟨after, hno, hsame, -⟩
  · exact Or.inl hyes
  · have hwithin : Within after state := fun other entry hentry => hsame ▸ hentry
    have hfirst : (getResult router now key after).1 = (getResult router now key state).1 := by
      rw [getResult, getResult, hsame]
      cases state.results key with
      | none => rfl
      | some entry =>
          dsimp only
          split_ifs
          · rfl
          · rfl
    refine Or.inr ⟨after, hno, hwithin, ?_⟩
    rcases getResult_cases router now key after with
      ⟨entry, hentry, hresult⟩ | ⟨behind, hresult, -, -, -, hresults⟩
    · rw [hresult] at hfirst
      exact Or.inl ⟨entry, hresult, hsame ▸ hentry, hfirst.symm⟩
    · rw [hresult] at hfirst
      exact Or.inr ⟨behind, hresult, fun other entry hentry =>
        hwithin other entry (hresults other entry hentry), hfirst.symm⟩

theorem step_outcome (router : Router K S) (current : Step S) (state : RouterState K S) :
    Outcome router current state (step router current state) := by
  have hlooked := looked_up router current.turn.now (router.key current.block) state
  have hcached (hlater : current.block.path = .message → current.isMerge = false) :
      cached router current state =
        (getResult router current.turn.now (router.key current.block) state).1 :=
    if_neg fun hmerge => absurd (hlater hmerge.1) (ne_true_of_eq_false · hmerge.2)
  rw [step]
  cases hpath : current.block.path with
  | block =>
      have hcached := hcached fun hmessage => by rw [hpath] at hmessage; cases hmessage
      simp only [compressBlockContent]
      rcases hlooked with hskipped | ⟨after, hskipped, hafter, hlooked⟩
      · simp only [hskipped]
        exact .quiet (by simp) fun _ _ => id
      · rcases hlooked with ⟨entry, hresult, hentry, hfirst⟩ | ⟨behind, hresult, hbehind, hfirst⟩
        · simp only [hskipped, hresult]
          split_ifs
          · exact .served (hcached.trans hfirst) hentry (within_freezeIf hafter)
          · exact .quiet (by simp) (within_moveToSkip hafter)
        · simp only [hskipped, hresult]
          exact .made (hcached.trans hfirst) hbehind fun shown hshown => Option.some_inj.mp hshown
  | message =>
      cases hmerge : current.isMerge with
      | false =>
          have hcached := hcached fun _ => hmerge
          simp only [lookupMessage]
          rcases hlooked with hskipped | ⟨after, hskipped, hafter, hlooked⟩
          · simp only [hskipped]
            exact .quiet (by simp) fun _ _ => id
          · rcases hlooked with
              ⟨entry, hresult, hentry, hfirst⟩ | ⟨behind, hresult, hbehind, hfirst⟩
            · simp only [hskipped, hresult]
              split_ifs
              · exact .served (hcached.trans hfirst) hentry (within_freezeIf hafter)
              · exact .quiet (by simp) hafter
              · exact .quiet (by simp) (within_moveToSkip hafter)
            · simp only [hskipped, hresult]
              exact .quiet (by simp) hbehind
      | true =>
          simp only [mergeMessage]
          refine .made (if_pos ⟨hpath, hmerge⟩) (fun _ _ => id) fun shown hshown => ?_
          split_ifs at hshown
          · exact Option.some_inj.mp hshown
          · cases hshown

end

/-! ## Runs with tool outputs -/

/-- A router with markers.  Its compressors belong to the setting of a block. -/
structure Setup (K S : Type) where
  tables : CharTables
  patterns : Ccr.PatternTables
  config : LossyConfig
  detector : Detector
  compressors : S → Compressors
  key : Block S → K
  countText : Text → ℕ
  ttlSeconds : ℚ
  freezeDecision : Bool

/-- The message has the role of a tool, or the block is the result of one. -/
def isToolOutput : Place → Bool
  | .message isTool => isTool
  | .toolResult => true
  | .textBlock isTool => isTool

/-- A text of a request is decided about, or it is a read that no strategy may touch. -/
inductive Event (S : Type) where
  | decision (current : Step S)
  | protectedRead (block : Block S)

def Event.block {S : Type} : Event S → Block S
  | .decision current => current.block
  | .protectedRead block => block

namespace Setup

variable {K S : Type} (setup : Setup K S)

def trace (block : Block S) : TracedResult :=
  compress setup.tables setup.patterns setup.config (setup.compressors block.setting)
    setup.detector block.content

def router : Router K S where
  key := setup.key
  compress block := (setup.trace block).toCompressionResult
  countText := setup.countText
  ttlSeconds := setup.ttlSeconds
  ccrInjectMarker := true
  freezeDecision := setup.freezeDecision

/-- The summary of a protected read. -/
def readSummary (block : Block S) : Draft :=
  summarizeTo (setup.compressors block.setting) (some setup.config.expReadKeepRatio) block.content

variable [DecidableEq K]

def answer : Event S → RouterState K S → Option Emission × RouterState K S
  | .decision current, state => step setup.router current state
  | .protectedRead block, state =>
      (some (experimentalCompressRead setup.config (setup.compressors block.setting)
        block.content), state)

/-- The block from whose compression a shown text comes. -/
def source (current : Step S) (state : RouterState K S) : Block S :=
  match cached setup.router current state with
  | some entry => entry.source
  | none => current.block

/-- The text that an event may show, and whether a summarizer wrote a part of it. -/
def origin : Event S → RouterState K S → Text × Bool
  | .decision current, state =>
      ((setup.trace (setup.source current state)).compressed,
        (setup.trace (setup.source current state)).summarized)
  | .protectedRead block, _ =>
      ((setup.readSummary block).compressed, (setup.readSummary block).summarized)

/-- Each event with the state before it and what it shows. -/
def run : RouterState K S → List (Event S) → List (Event S × RouterState K S × Option Emission)
  | _, [] => []
  | state, event :: rest =>
      (event, state, (setup.answer event state).1) :: run (setup.answer event state).2 rest

end Setup

/-! ## Guarded runs -/

section

variable {K S : Type} (setup : Setup K S)

/-- The gate looks at what is made from the block, or all summaries for it have markers. -/
def Reversible (block : Block S) : Prop :=
  (block.enforceReversibility = true ∧
      route setup.config setup.detector block.content ∈ lossyUnmarkedStrategies) ∨
    MarksContent setup.tables setup.patterns setup.config (setup.compressors block.setting)
      setup.detector block.content

/-- The texts with the key of a tool output are reversible, and so are the protected reads. -/
structure Guarded (events : List (Event S)) : Prop where
  decisions : ∀ tool, .decision tool ∈ events → isToolOutput tool.block.place = true →
    ∀ other, .decision other ∈ events → setup.key other.block = setup.key tool.block →
      Reversible setup other.block
  reads : ∀ block, .protectedRead block ∈ events → isToolOutput block.place = true →
    setup.config.expReadKeepRatio = 0 ∨
      Marked (setup.readSummary block).compressed block.content

variable {setup}
variable {block : Block S}

theorem ratioGate_marked {router : Router K S} {minRatio ratio found : ℚ}
    {strategy : StoredStrategy} (henforce : block.enforceReversibility = true)
    (hinject : router.ccrInjectMarker = true)
    (hstrategy : (router.compress block).strategyUsed ∈ lossyUnmarkedStrategies)
    (haccept : ratioGate router minRatio ratio block = .accept found strategy) :
    hasRetrievalMarker (router.compress block).compressed = true := by
  simp only [ratioGate] at haccept
  split_ifs at haccept with hratio hgate
  rw [henforce, hinject, unrecoverable, decide_eq_true hstrategy, Bool.true_and, Bool.true_and,
    Bool.true_and, Bool.not_eq_true', Bool.not_eq_false] at hgate
  exact hgate

/-- An accepted compression of a reversible text has a marker if it is a summary. -/
theorem marker_of_accepted (haccepted : Accepted setup.router block)
    (hreversible : Reversible setup block) (hsummarized : (setup.trace block).summarized = true) :
    hasRetrievalMarker (setup.trace block).compressed = true := by
  rcases hreversible with ⟨henforce, hroute⟩ | hmarks
  · obtain ⟨minRatio, ratio, strategy, hfresh⟩ := haccepted
    have hnotMixed : route setup.config setup.detector block.content ≠ .mixed := by
      intro hmixed
      rw [hmixed] at hroute
      exact absurd hroute (by decide)
    have htraced : (setup.trace block).toCompressionResult.strategyUsed ∈
        lossyUnmarkedStrategies ∧
          (startsLossless (setup.trace block).strategyChain = true →
            (setup.trace block).strategyChain.all ChainLink.isLossless = true → False) := by
      simp only [Setup.trace, compress] at hsummarized ⊢
      simp only [if_neg hnotMixed] at hsummarized ⊢
      split_ifs at hsummarized ⊢ with hblank hempty
      · cases hsummarized
      · refine ⟨hroute, fun hstarts hall => ?_⟩
        have hplain := plain_of_lossless hstarts hall
        exact absurd (hplain.symm.trans hsummarized) Bool.false_ne_true
    have hmarked {ratio found : ℚ} {strategy : StoredStrategy}
        (haccept : ratioGate setup.router minRatio ratio block = .accept found strategy) :
        hasRetrievalMarker (setup.trace block).compressed = true :=
      ratioGate_marked henforce rfl htraced.1 haccept
    simp only [fresh] at hfresh
    cases hpath : block.path with
    | block =>
        rw [hpath] at hfresh
        dsimp only at hfresh
        split_ifs at hfresh with hbytes
        · simp only [byteAccept, Bool.and_eq_true, Bool.or_eq_true] at hbytes
          exact (htraced.2 hbytes.1.1 (hbytes.1.2.resolve_right Bool.false_ne_true)).elim
        · exact hmarked hfresh
    | message =>
        rw [hpath] at hfresh
        exact hmarked hfresh
  · exact recoverable_compress hmarks hsummarized

variable [DecidableEq K]

/-- Each result is an accepted compression of a text that was decided about. -/
def Sourced (setup : Setup K S) (events : List (Event S)) (state : RouterState K S) : Prop :=
  ∀ key entry, state.results key = some entry →
    MadeFrom setup.router entry.source key entry ∧
      ∃ other, .decision other ∈ events ∧ other.block = entry.source

variable {events : List (Event S)} {state : RouterState K S}

omit [DecidableEq K] in
theorem Sourced.within {after : RouterState K S} (hstate : Sourced setup events state)
    (hafter : Within after state) : Sourced setup events after := fun key entry hentry =>
  hstate key entry (hafter key entry hentry)

variable {current : Step S}

theorem sourced_storeFresh (hstate : Sourced setup events state)
    (hcurrent : .decision current ∈ events) :
    Sourced setup events (storeFresh setup.router current.turn current.block state).2 := by
  intro key entry hentry
  rcases storeFresh_results hentry with hbefore | hmade
  · exact hstate key entry hbefore
  · obtain ⟨hkey, hsource, hrest⟩ := hmade
    rw [hsource]
    exact ⟨⟨hkey, hsource, hrest⟩, current, hcurrent, rfl⟩

/-- A decision shows an accepted compression of a text with the same key. -/
theorem step_sourced (hstate : Sourced setup events state) (hcurrent : .decision current ∈ events) :
    (∀ shown, (step setup.router current state).1 = some (some shown) →
      Accepted setup.router (setup.source current state) ∧
        setup.key (setup.source current state) = setup.key current.block ∧
        (∃ other, .decision other ∈ events ∧ other.block = setup.source current state) ∧
        shown = (setup.trace (setup.source current state)).compressed) ∧
      Sourced setup events (step setup.router current state).2 := by
  have houtcome := step_outcome setup.router current state
  generalize step setup.router current state = result at houtcome ⊢
  cases houtcome with
  | quiet hemission hafter =>
      exact ⟨fun shown hshown => absurd hshown (hemission shown), hstate.within hafter⟩
  | served hcached hentry hafter =>
      obtain ⟨⟨hkey, -, hcompressed, haccepted⟩, hother⟩ := hstate _ _ hentry
      refine ⟨fun shown hshown => ?_, hstate.within hafter⟩
      cases hshown
      rw [Setup.source, hcached]
      exact ⟨haccepted, hkey.symm, hother, hcompressed⟩
  | made hcached hlooked hemission =>
      refine ⟨fun shown hshown => ?_, sourced_storeFresh (hstate.within hlooked) hcurrent⟩
      obtain ⟨haccepted, hcompressed⟩ := storeFresh_shown (hemission shown hshown)
      rw [Setup.source, hcached]
      exact ⟨haccepted, rfl, ⟨current, hcurrent, rfl⟩, hcompressed⟩

theorem experimentalCompressRead_eq {config : LossyConfig} {compressors : Compressors}
    {content shown : Text}
    (hshown : experimentalCompressRead config compressors content = some shown) :
    config.expReadKeepRatio ≠ 0 ∧
      shown = (summarizeTo compressors (some config.expReadKeepRatio) content).compressed := by
  rw [experimentalCompressRead] at hshown
  dsimp only at hshown
  split_ifs at hshown with hoff hshorter
  exact ⟨fun hzero => hoff (Or.inl hzero), (Option.some_inj.mp hshown).symm⟩

/-- What an event shows for a tool output comes from a summarizer with a marker, or from none. -/
theorem answer_reversible (hguarded : Guarded setup events) (hstate : Sourced setup events state)
    {event : Event S} (hevent : event ∈ events) :
    (isToolOutput event.block.place = true → ∀ shown,
      (setup.answer event state).1 = some (some shown) →
        shown = (setup.origin event state).1 ∧
          ((setup.origin event state).2 = true → hasRetrievalMarker shown = true)) ∧
      Sourced setup events (setup.answer event state).2 := by
  cases event with
  | decision current =>
      obtain ⟨hshows, hafter⟩ := step_sourced hstate hevent
      refine ⟨fun htool shown hshown => ?_, hafter⟩
      obtain ⟨haccepted, hkey, ⟨other, hother, hsource⟩, heq⟩ := hshows shown hshown
      have hreversible : Reversible setup (setup.source current state) := by
        rw [← hsource] at hkey ⊢
        exact hguarded.decisions current hevent htool other hother hkey
      refine ⟨heq, fun hsummarized => ?_⟩
      rw [heq]
      exact marker_of_accepted haccepted hreversible hsummarized
  | protectedRead block =>
      refine ⟨fun htool shown hshown => ?_, hstate⟩
      obtain ⟨hratio, heq⟩ := experimentalCompressRead_eq (Option.some_inj.mp hshown)
      refine ⟨heq, fun hsummarized => ?_⟩
      rw [heq]
      exact recoverable_summarizeTo ((hguarded.reads block hevent htool).resolve_left hratio)
        hsummarized

theorem run_reversible (hguarded : Guarded setup events) {rest : List (Event S)}
    (hrest : ∀ event ∈ rest, event ∈ events) (hstate : Sourced setup events state) :
    ∀ decision ∈ setup.run state rest, isToolOutput decision.1.block.place = true →
      ∀ shown, decision.2.2 = some (some shown) →
        shown = (setup.origin decision.1 decision.2.1).1 ∧
          ((setup.origin decision.1 decision.2.1).2 = true → hasRetrievalMarker shown = true) := by
  induction rest generalizing state with
  | nil => exact fun decision hdecision => absurd hdecision List.not_mem_nil
  | cons event rest ih =>
      obtain ⟨hevent, hrest⟩ := List.forall_mem_cons.mp hrest
      obtain ⟨hshows, hafter⟩ := answer_reversible hguarded hstate hevent
      exact List.forall_mem_cons.mpr ⟨hshows, ih hrest hafter⟩

/-- In a run where all texts with the keys of tool outputs are reversible, no tool output is shown
with a summary that has no marker. -/
theorem tool_outputs_reversible (setup : Setup K S) (events : List (Event S))
    (hguarded : Guarded setup events) :
    ∀ decision ∈ setup.run RouterState.empty events,
      isToolOutput decision.1.block.place = true → ∀ shown, decision.2.2 = some (some shown) →
        shown = (setup.origin decision.1 decision.2.1).1 ∧
          ((setup.origin decision.1 decision.2.1).2 = true → hasRetrievalMarker shown = true) :=
  run_reversible hguarded (fun _ => id) fun _ _ => nofun

end

/-! ## A summary behind the crusher -/

/-- A summarizer that has one answer for all texts. -/
def summarizer (answer : Text) : Compressors where
  estimateTokens := List.length
  countWords := List.length
  tryMlCompressor _ _ := (answer, answer.length)
  codeCompressor := none
  formatCompressor _ := some some
  planRelevanceSplit _ := []
  isValidJson _ := true

def setupOf (answer : Text) (found : ContentType) : Setup Text Unit where
  tables := asciiTables
  patterns := Ccr.asciiPatternTables
  config := ⟨⟨true, false⟩, false, false, 1 / 20, 0⟩
  detector := ⟨fun _ => false, fun _ => found, fun _ => false⟩
  compressors _ := summarizer answer
  key := Block.content
  countText := List.length
  ttlSeconds := 1
  freezeDecision := false

/-- A tool result of 33 characters. -/
def resultAt (now : ℚ) : Event Unit :=
  .decision ⟨⟨text "[100,200,300,400,500,600,700,800]", .toolResult, ()⟩,
    ⟨now, 9 / 10, true, true⟩, false⟩

theorem tool_outputs_reversible_marked :
    ((setupOf (text "1 <<ccr:a>>") .plainText).answer (resultAt 0) RouterState.empty).1 =
        some (some (text "1 <<ccr:a>>")) ∧
      ∀ decision ∈ (setupOf (text "1 <<ccr:a>>") .plainText).run RouterState.empty
          [resultAt 0, resultAt (1 / 2)],
        isToolOutput decision.1.block.place = true → ∀ shown, decision.2.2 = some (some shown) →
          shown = ((setupOf (text "1 <<ccr:a>>") .plainText).origin decision.1 decision.2.1).1 ∧
            (((setupOf (text "1 <<ccr:a>>") .plainText).origin decision.1 decision.2.1).2 = true →
              hasRetrievalMarker shown = true) := by
  refine ⟨by decide +kernel,
    tool_outputs_reversible _ _ ⟨fun tool htool _ other hother _ => ?_, ?_⟩⟩
  · simp only [resultAt, List.mem_cons, List.not_mem_nil, or_false, Event.decision.injEq] at hother
    refine Or.inl ⟨?_, ?_⟩
    · rcases hother with rfl | rfl
      · rfl
      · rfl
    · show CompressionStrategy.text ∈ lossyUnmarkedStrategies
      decide
  · simp [resultAt]

/-- A fallback of the crusher summarizes a tool result without a marker. -/
theorem summary_unmarked :
    ¬ ∀ (setup : Setup Text Unit) (events : List (Event Unit)),
      ∀ decision ∈ setup.run RouterState.empty events,
        isToolOutput decision.1.block.place = true → ∀ shown, decision.2.2 = some (some shown) →
          (setup.origin decision.1 decision.2.1).2 = true → hasRetrievalMarker shown = true := by
  intro hclaim
  have hshown : ((setupOf (text "1") .jsonArray).answer (resultAt 0) RouterState.empty).1 =
      some (some (text "1")) := by decide +kernel
  have hmarker := hclaim (setupOf (text "1") .jsonArray) [resultAt 0] _ List.mem_cons_self rfl _
    hshown (by decide +kernel)
  exact absurd hmarker (by decide +kernel)

end Legroom.LossyRouter
