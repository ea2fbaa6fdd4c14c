import Legroom.Lib.SplitOn
import Legroom.Transforms.LossyRouter

/-!
# Summaries with a way back

A summary that is unchanged or has a retrieval marker stays so whatever is put around it.
-/

namespace Legroom.LossyRouter

open Python LosslessCompaction LosslessRouter BlockDecisions

/-! ## Markers -/

theorem retrievalMarkers_plain : ∀ pattern ∈ retrievalMarkers,
    (∀ piece ∈ pattern, piece.isBoundary = false) ∧ ∃ accepts, .one accepts ∈ pattern := by
  have hliteral (word : Text) : ∀ piece ∈ Regex.literal word, piece.isBoundary = false := by
    intro piece hpiece
    obtain ⟨char, -, rfl⟩ := List.mem_map.mp hpiece
    rfl
  intro pattern hpattern
  simp only [retrievalMarkers, List.mem_cons, List.not_mem_nil, or_false] at hpattern
  rcases hpattern with rfl | rfl | rfl
  · exact ⟨hliteral _, _, List.mem_cons_self⟩
  · exact ⟨hliteral _, _, List.mem_cons_self⟩
  · refine ⟨fun piece hpiece => ?_, _, List.mem_cons_self⟩
    rcases List.mem_append.mp hpiece with hopening | hrest
    · exact hliteral _ piece hopening
    · rcases List.mem_cons.mp hrest with rfl | hclosing
      · rfl
      · exact hliteral _ piece hclosing

/-- A marker in a part of a text is one in the text. -/
theorem hasRetrievalMarker_of_part {shown whole : Text} (hpart : shown <:+: whole)
    (hmarker : hasRetrievalMarker shown = true) : hasRetrievalMarker whole = true := by
  obtain ⟨pattern, hpattern, hfound⟩ := List.any_eq_true.mp hmarker
  obtain ⟨hplain, accepts, hone⟩ := retrievalMarkers_plain pattern hpattern
  rw [Bool.not_eq_true', List.isEmpty_eq_false_iff] at hfound
  obtain ⟨groups, hgroups⟩ := List.exists_mem_of_ne_nil _ hfound
  obtain ⟨taken, htaken, hspelled⟩ := Regex.spelled_of_mem_findAll hgroups
  obtain ⟨char, hchar, -⟩ := Regex.exists_mem_of_spelled hspelled hone
  refine List.any_eq_true.mpr ⟨pattern, hpattern, ?_⟩
  rw [Bool.not_eq_true', List.isEmpty_eq_false_iff]
  exact Regex.findAll_ne_nil hplain hspelled (List.ne_nil_of_mem hchar) (htaken.trans hpart) none

/-- A text as it was, or one with a marker. -/
def Marked (shown original : Text) : Prop := shown = original ∨ hasRetrievalMarker shown = true

def Draft.Recoverable (draft : Draft) : Prop :=
  draft.summarized = true → hasRetrievalMarker draft.compressed = true

theorem recoverable_plain (compressors : Compressors) (content : Text) :
    (plain compressors content).Recoverable := nofun

theorem recoverable_summarizeTo {compressors : Compressors} {targetRatio : Option ℚ}
    {content : Text}
    (hmarked : Marked (compressors.tryMlCompressor targetRatio content).1 content) :
    (summarizeTo compressors targetRatio content).Recoverable := by
  intro hsummarized
  exact hmarked.resolve_left (of_decide_eq_true hsummarized)

/-! ## Requests -/

section

variable (tables : CharTables) (compressors : Compressors)

/-- The texts for which the summarizer may be asked on behalf of a content. -/
def requests (content : Text) (strategy : CompressionStrategy) : List Text :=
  content :: (losslessFirst tables content strategy).1 ::
    ((formatted compressors content strategy).toList ++
      ((compressors.planRelevanceSplit content).filter fun run => !run.1).map Prod.snd)

/-- Each summary that may be taken has a marker if it changes its text. -/
structure MarksRequests (content : Text) (strategy : CompressionStrategy)
    (language : Option Text) : Prop where
  summaries : ∀ request ∈ requests tables compressors content strategy,
    Marked (compressors.tryMlCompressor none request).1 request
  code : strategy = .codeAware → ∀ compress ∈ compressors.codeCompressor,
    ∀ shown ∈ compress content language, Marked shown content

end

variable {tables : CharTables} {patterns : Ccr.PatternTables} {config : LossyConfig}
  {compressors : Compressors} {content : Text} {strategy : CompressionStrategy}
  {language : Option Text}

theorem MarksRequests.summary
    (hmarks : MarksRequests tables compressors content strategy language) :
    (summarize compressors content).Recoverable :=
  recoverable_summarizeTo (hmarks.summaries content List.mem_cons_self)

/-! ## Strategies -/

theorem recoverable_relevanceSplit {kind : Kind} {split : Draft}
    (hmarks : MarksRequests tables compressors content strategy language)
    (hsplit : relevanceSplitCompress tables compressors content kind = some split) :
    split.Recoverable := by
  simp only [relevanceSplitCompress] at hsplit
  split_ifs at hsplit with hkept hshorter
  rw [← Option.some_inj.mp hsplit]
  intro hsummarized
  obtain ⟨part, hpart, hwritten⟩ := List.any_eq_true.mp hsummarized
  obtain ⟨⟨keep, run⟩, hrun, rfl⟩ := List.mem_map.mp hpart
  cases keep with
  | true => cases hwritten
  | false =>
      have hrequest : run ∈ requests tables compressors content strategy :=
        List.mem_cons_of_mem _ (List.mem_cons_of_mem _ (List.mem_append_right _
          (List.mem_map.mpr ⟨(false, run), List.mem_filter.mpr ⟨hrun, rfl⟩, rfl⟩)))
      have hmarker := recoverable_summarizeTo (hmarks.summaries run hrequest) hwritten
      exact hasRetrievalMarker_of_part
        (List.infix_of_mem_flatten (List.mem_map_of_mem hpart)) hmarker

variable {found : Draft × List ChainLink}

theorem recoverable_foldFirst (hmarks : MarksRequests tables compressors content strategy language)
    (hfound : foldFirst tables config compressors content strategy = some found) :
    found.1.Recoverable := by
  have hrequest : (losslessFirst tables content strategy).1 ∈
      requests tables compressors content strategy :=
    List.mem_cons_of_mem _ List.mem_cons_self
  rw [foldFirst] at hfound
  cases hfold : losslessFirst tables content strategy with
  | mk folded fold =>
      rw [hfold] at hfound hrequest
      cases fold with
      | none => cases hfound
      | some kind =>
          dsimp only at hfound
          split_ifs at hfound with hlayer
          · rw [← Option.some_inj.mp hfound]
            exact recoverable_summarizeTo (hmarks.summaries folded hrequest)
          · rw [← Option.some_inj.mp hfound]
            exact recoverable_plain compressors folded

variable {draft : Draft}

theorem recoverable_attempt (hmarks : MarksRequests tables compressors content strategy language)
    (hdraft : (attempt config compressors content strategy language).draft = some draft) :
    draft.Recoverable := by
  cases strategy with
  | codeAware =>
      rw [attempt, attemptCode] at hdraft
      cases hcode : compressors.codeCompressor with
      | none =>
          rw [hcode] at hdraft
          rw [← Option.some_inj.mp hdraft]
          exact hmarks.summary
      | some compress =>
          rw [hcode] at hdraft
          cases hshown : compress content language with
          | none =>
              simp only [hshown] at hdraft
              cases hdraft
          | some shown =>
              simp only [hshown] at hdraft
              split_ifs at hdraft with hlayer
              · rw [← Option.some_inj.mp hdraft]
                exact hmarks.summary
              · rw [← Option.some_inj.mp hdraft]
                exact fun hwritten => (hmarks.code rfl compress hcode shown hshown).resolve_left
                  (of_decide_eq_true hwritten)
  | kompress | text => exact Option.some_inj.mp hdraft ▸ hmarks.summary
  | passthrough => exact Option.some_inj.mp hdraft ▸ recoverable_plain compressors content
  | mixed => cases hdraft
  | smartCrusher | search | log | diff | html | tabular | config =>
      obtain ⟨shown, -, rfl⟩ := Option.map_eq_some_iff.mp hdraft
      exact nofun

variable {chain : List ChainLink} {attempted : CompressionStrategy}

theorem recoverable_lastDitch (hdraft : draft.Recoverable) :
    (lastDitch compressors content attempted draft chain).1.Recoverable := by
  rw [lastDitch]
  split_ifs with hlog
  · cases formatted compressors content .log with
    | none => exact hdraft
    | some log =>
        dsimp only
        split_ifs
        · exact recoverable_plain compressors log
        · exact hdraft
  · exact hdraft

theorem recoverable_fallBack (hdraft : draft.Recoverable)
    (hsummary : (summarize compressors content).Recoverable) :
    (fallBack compressors content attempted draft chain).1.Recoverable := by
  simp only [fallBack]
  split_ifs
  · exact hdraft
  · exact recoverable_lastDitch hdraft
  · exact hsummary
  · exact recoverable_lastDitch hdraft
  · exact hdraft

theorem fallBack_of_not_eligible (hattempted : fallbackEligible attempted = false) (draft : Draft)
    (chain : List ChainLink) :
    fallBack compressors content attempted draft chain = (draft, chain) := by
  rw [fallBack, hattempted]
  rfl

theorem recoverable_layerLossy (hfound : found.1.Recoverable)
    (hlayer : isStructural attempted = true →
      (summarize compressors found.1.compressed).Recoverable) :
    (layerLossy config compressors content attempted found).1.Recoverable := by
  simp only [layerLossy]
  split
  · next htaken =>
      simp only [Bool.and_eq_true] at htaken
      intro hwritten
      rcases Bool.or_eq_true .. ▸ hwritten with hlayered | hbelow
      · exact hlayer htaken.1.1.2 hlayered
      · -- A layer that is shorter is not what was below it.
        refine hlayer htaken.1.1.2 (decide_eq_true fun hsame => ?_)
        have hshorter := of_decide_eq_true (Bool.and_eq_true .. ▸ htaken.2).2
        rw [summarize, summarizeTo, hsame] at hshorter
        exact absurd hshorter (lt_irrefl _)
  · exact hfound

theorem attempt_structural
    (hdraft : (attempt config compressors content strategy language).draft = some draft)
    (hstructural : isStructural (attempt config compressors content strategy language).strategy =
      true) :
    fallbackEligible (attempt config compressors content strategy language).strategy = false ∧
      formatted compressors content strategy = some draft.compressed := by
  cases strategy with
  | codeAware =>
      rw [attempt, attemptCode] at hstructural
      cases hcode : compressors.codeCompressor with
      | none => rw [hcode] at hstructural; cases hstructural
      | some compress =>
          rw [hcode] at hstructural
          cases hshown : compress content language with
          | none => simp only [hshown] at hstructural; cases hstructural
          | some shown =>
              simp only [hshown] at hstructural
              split_ifs at hstructural
              · cases hstructural
              · cases hstructural
  | kompress | text | passthrough | mixed | smartCrusher | diff | tabular | config =>
      cases hstructural
  | search | log | html =>
      obtain ⟨shown, hshown, rfl⟩ := Option.map_eq_some_iff.mp hdraft
      exact ⟨rfl, hshown⟩

theorem recoverable_runStrategy
    (hmarks : MarksRequests tables compressors content strategy language) :
    (runStrategy config compressors content strategy language).1.Recoverable := by
  rw [runStrategy]
  cases hdraft : (attempt config compressors content strategy language).draft with
  | none => exact recoverable_plain compressors content
  | some draft =>
      have hrecoverable := recoverable_attempt hmarks hdraft
      refine recoverable_layerLossy (recoverable_fallBack hrecoverable hmarks.summary) ?_
      intro hstructural
      obtain ⟨heligible, hshown⟩ := attempt_structural hdraft hstructural
      rw [fallBack_of_not_eligible heligible]
      refine recoverable_summarizeTo (hmarks.summaries _ ?_)
      exact List.mem_cons_of_mem _ (List.mem_cons_of_mem _ (List.mem_append_left _
        (Option.mem_toList.mpr hshown)))

theorem recoverable_applyStrategy
    (hmarks : MarksRequests tables compressors content strategy language) :
    (applyStrategyToContent tables config compressors content strategy language).1.Recoverable := by
  simp only [applyStrategyToContent]
  split
  · next split hsplit =>
      split_ifs at hsplit with hrelevance
      obtain ⟨kind, -, hkind⟩ := Option.bind_eq_some_iff.mp hsplit
      exact recoverable_relevanceSplit hmarks hkind
  · cases hfold : foldFirst tables config compressors content strategy with
    | none => exact recoverable_runStrategy hmarks
    | some found => exact recoverable_foldFirst hmarks hfold

/-! ## Chains -/

theorem attempt_chain : ∃ rest,
    (attempt config compressors content strategy language).chain = .strategy strategy :: rest := by
  cases strategy with
  | codeAware =>
      rw [attempt, attemptCode]
      cases compressors.codeCompressor with
      | none => exact ⟨_, rfl⟩
      | some compress =>
          dsimp only
          cases compress content language with
          | none => exact ⟨_, rfl⟩
          | some shown =>
              dsimp only
              split_ifs
              · exact ⟨_, rfl⟩
              · exact ⟨_, rfl⟩
  | kompress | text | passthrough | mixed | smartCrusher | diff | tabular | config | search | log
  | html => exact ⟨[], rfl⟩

theorem prefix_lastDitch : chain <+: (lastDitch compressors content attempted draft chain).2 := by
  rw [lastDitch]
  split_ifs
  · cases formatted compressors content .log with
    | none => exact List.prefix_append _ _
    | some log =>
        dsimp only
        split_ifs
        · exact List.prefix_append _ _
        · exact List.prefix_append _ _
  · exact List.prefix_rfl

theorem prefix_fallBack : chain <+: (fallBack compressors content attempted draft chain).2 := by
  simp only [fallBack]
  split_ifs
  · exact List.prefix_rfl
  · exact prefix_lastDitch
  · exact List.prefix_append _ _
  · exact (List.prefix_append _ _).trans prefix_lastDitch
  · exact List.prefix_rfl

theorem prefix_layerLossy :
    found.2 <+: (layerLossy config compressors content attempted found).2 := by
  simp only [layerLossy]
  split_ifs
  · exact List.prefix_append _ _
  · exact List.prefix_rfl

theorem runStrategy_chain : ∃ rest,
    (runStrategy config compressors content strategy language).2 = .strategy strategy :: rest := by
  have hattempt : ∃ rest, (attempt config compressors content strategy language).chain =
      .strategy strategy :: rest := attempt_chain
  obtain ⟨rest, hchain⟩ := hattempt
  have hprefix : (attempt config compressors content strategy language).chain <+:
      (runStrategy config compressors content strategy language).2 := by
    rw [runStrategy]
    cases (attempt config compressors content strategy language).draft with
    | none => exact List.prefix_append _ _
    | some draft => exact prefix_fallBack.trans prefix_layerLossy
  obtain ⟨behind, hbehind⟩ := hchain ▸ hprefix
  exact ⟨rest ++ behind, hbehind.symm⟩

/-- No summarizer writes where the chain has folds alone. -/
theorem plain_of_lossless
    (hstarts : startsLossless
      (applyStrategyToContent tables config compressors content strategy language).2 = true)
    (hall : (applyStrategyToContent tables config compressors content strategy language).2.all
      ChainLink.isLossless = true) :
    (applyStrategyToContent tables config compressors content strategy language).1.summarized =
      false := by
  simp only [applyStrategyToContent] at hstarts hall ⊢
  split at hstarts
  · cases hstarts
  · next hsplit =>
      rw [hsplit] at hall
      cases hfold : foldFirst tables config compressors content strategy with
      | none =>
          have hchain : ∃ rest, (runStrategy config compressors content strategy language).2 =
              .strategy strategy :: rest := runStrategy_chain
          obtain ⟨rest, hchain⟩ := hchain
          simp only [hfold, hchain] at hstarts
          cases hstarts
      | some found =>
          simp only [hfold] at hall ⊢
          rw [foldFirst] at hfold
          cases hfirst : losslessFirst tables content strategy with
          | mk folded fold =>
              rw [hfirst] at hfold
              cases fold with
              | none => cases hfold
              | some kind =>
                  dsimp only at hfold
                  split_ifs at hfold with hlayer
                  · rw [← Option.some_inj.mp hfold] at hall
                    cases hall
                  · rw [← Option.some_inj.mp hfold]
                    rfl

/-! ## Contents -/

section

variable (tables patterns config compressors)

/-- Each summary that may be taken for a content, or for a section of a mixed one, has a marker
if it changes its text. -/
def MarksContent (detector : Detector) (content : Text) : Prop :=
  if route config detector content = .mixed then
    ∀ found ∈ splitIntoSections tables patterns content,
      MarksRequests tables compressors found.content
        (strategyFromDetectionType found.contentType) found.language
  else MarksRequests tables compressors content (route config detector content) none

end

theorem infix_emitted (found : ContentSection) (compressed : Text) :
    compressed <:+: (FoldedSection.mk found compressed none).emitted := by
  rw [FoldedSection.emitted]
  cases found.language with
  | none => exact List.infix_rfl
  | some language =>
      refine ⟨fence ++ language ++ [newline], [newline] ++ fence, ?_⟩
      simp only [List.append_assoc]

theorem recoverable_compressMixed
    (hmarks : ∀ found ∈ splitIntoSections tables patterns content,
      MarksRequests tables compressors found.content
        (strategyFromDetectionType found.contentType) found.language)
    (hsummarized : (compressMixed tables patterns config compressors content).summarized = true) :
    hasRetrievalMarker (compressMixed tables patterns config compressors content).compressed =
      true := by
  simp only [compressMixed] at hsummarized ⊢
  split_ifs at hsummarized ⊢ with hempty
  · cases hsummarized
  · obtain ⟨draft, hdraft, hwritten⟩ := List.any_eq_true.mp hsummarized
    obtain ⟨found, hfound, rfl⟩ := List.mem_map.mp hdraft
    have hmarker : hasRetrievalMarker (compressSection tables config compressors found).compressed =
        true := recoverable_applyStrategy (hmarks found hfound) hwritten
    refine hasRetrievalMarker_of_part ((infix_emitted found _).trans ?_) hmarker
    refine infix_intercalate _ ?_
    rw [List.zipWith_map_right, List.zipWith_self]
    exact List.mem_map_of_mem hfound

theorem recoverable_compress {detector : Detector}
    (hmarks : MarksContent tables patterns config compressors detector content)
    (hsummarized :
      (compress tables patterns config compressors detector content).summarized = true) :
    hasRetrievalMarker (compress tables patterns config compressors detector content).compressed =
      true := by
  rw [MarksContent] at hmarks
  simp only [compress] at hsummarized ⊢
  by_cases hmixed : route config detector content = .mixed
  · rw [if_pos hmixed] at hmarks
    simp only [if_pos hmixed] at hsummarized ⊢
    split_ifs at hsummarized ⊢ with hblank hempty
    · cases hsummarized
    · exact recoverable_compressMixed hmarks hsummarized
  · rw [if_neg hmixed] at hmarks
    simp only [if_neg hmixed] at hsummarized ⊢
    split_ifs at hsummarized ⊢ with hblank hempty
    · cases hsummarized
    · exact recoverable_applyStrategy hmarks hsummarized

end Legroom.LossyRouter
