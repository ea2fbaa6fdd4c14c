import Legroom.LiveZone.AnthropicFrame
import Legroom.LiveZone.OpenAiChat
import Legroom.LiveZone.OpenAiResponses
import Mathlib.Algebra.Order.BigOperators.Group.List

/-!
# When the OpenAI dispatchers copy the rest of the body

Outside the rewritten texts the dispatchers copy the body, but the checked result
is a JSON value without the white space around it.  So all other bytes are kept
exactly if there is none.
-/

namespace Legroom.LiveZone

open Utf8 Json

/-- The new body is the old one with nothing but texts at allowed paths replaced. -/
def Framed (allowed : Path → Prop) (bodyRaw newBody : Bytes) : Prop :=
  ∃ (document : Document) (value : Value) (new : Edit), document.render = bodyRaw ∧
    document.value.denote = some value ∧ (∀ path, new path ≠ none → allowed path) ∧
    newBody = (document.edit new).render ∧ valueFromSlice newBody = some (value.edit new)

variable {allowed : Path → Prop}

theorem space_of_framed {bodyRaw newBody : Bytes} (hframed : Framed allowed bodyRaw newBody) :
    (takeSpace newBody).1 = (takeSpace bodyRaw).1 := by
  obtain ⟨document, _, new, rfl, _, _, rfl, _⟩ := hframed
  rw [Document.render, Document.render, Document.edit,
    takeSpace_append _ (startsToken_render _ _), takeSpace_append _ (startsToken_render _ _)]

/-- The text of an edited value frames the body if there is no white space around. -/
theorem framed_edit_iff {document : Document} {value : Value}
    (hdepth : document.value.depth < recursionLimit) (hdenote : document.value.denote = some value)
    {new : Edit} (hallowed : ∀ path, new path ≠ none → allowed path) :
    Framed allowed document.render (document.value.edit new).render ↔
      Trimmed document.render := by
  have hbare : (⟨.empty, document.value.edit new, .empty⟩ : Document).render =
      (document.value.edit new).render := by
    simp [Document.render, Space.empty]
  rw [trimmed_render_iff]
  constructor
  · rintro ⟨other, _, edit, hrender, _, _, hbody, _⟩
    have hparse := parseDocument_eq_some_iff.mpr hrender
    rw [parseDocument_eq_some_iff.mpr rfl] at hparse
    obtain rfl : document = other := Option.some.inj hparse
    have hbodies := parseDocument_eq_some_iff.mpr (hbare.trans hbody)
    rw [parseDocument_eq_some_iff.mpr rfl] at hbodies
    have hsame := Option.some.inj hbodies
    exact ⟨congrArg (fun found : Document => found.before.bytes) hsame,
      congrArg (fun found : Document => found.after.bytes) hsame⟩
  · rintro ⟨hbefore, hafter⟩
    refine ⟨document, value, new, rfl, hdenote, hallowed, ?_,
      valueFromSlice_edit hdepth hdenote new⟩
    rw [Document.render, Document.edit, hbefore, hafter, List.append_nil, List.nil_append]

/-! ## Retrieval outputs -/

/-- The item answers a call of the retrieval tool somewhere among the items. -/
def AnswersRetrieval (items : List Value) (item : Value) : Prop :=
  ∃ call ∈ items, ∃ name callId,
    textField call (constant "type") = some (constant "function_call") ∧
    textField call (constant "name") = some name ∧
    (name = constant "legroom_retrieve" ∨
      (constant "__legroom_retrieve").bytes <:+ name.bytes) ∧
    textField call (constant "call_id") = some callId ∧
    textField item (constant "call_id") = some callId

variable {items : List Value}

theorem isRetrieveOutput_of_answers {item : Value} (hanswers : AnswersRetrieval items item) :
    isRetrieveOutput (legroomRetrieveCallIds items) item = true := by
  obtain ⟨call, hcall, name, callId, htype, hname, hretrieve, hcallId, hitem⟩ := hanswers
  have hisName : isRetrieveName name = true := by
    rw [isRetrieveName, Bool.or_eq_true]
    exact hretrieve.imp (fun heq => decide_eq_true heq) List.isSuffixOf_iff_suffix.mpr
  have hid : retrieveCallId call = some callId := by
    rw [retrieveCallId, if_neg (not_not.mpr htype), hname, Option.getD_some, if_pos hisName,
      hcallId]
  have hmem : callId ∈ legroomRetrieveCallIds items :=
    List.mem_filterMap.mpr ⟨call, hcall, hid⟩
  rw [isRetrieveOutput, hitem]
  exact decide_eq_true hmem

/-- No rewritten path leads into the answer to a retrieval call. -/
theorem keeps_answer {list : Utf8String} {new : Edit}
    (hallowed : ∀ path, new path ≠ none → ResponsesAllowed list items path) {index : ℕ}
    {item : Value} (hitem : items[index]? = some item) (hanswers : AnswersRetrieval items item) :
    new.belowPath [.key list, .index index] = .keepAll := by
  funext rest
  by_contra hne
  obtain ⟨other, houtput, hpath⟩ := hallowed _ hne
  have hsteps := (List.cons.inj (List.cons.inj hpath).2).1
  cases hsteps
  obtain ⟨found, _, _, hfound, _, _, _, hkept⟩ := houtput.exists_item
  rw [hitem] at hfound
  cases hfound
  rw [isRetrieveOutput_of_answers hanswers] at hkept
  cases hkept

/-! ## The frame law -/

variable (backend : Backend) (model : Utf8String)

/-- A modified chat or Responses body differs from the input in the allowed texts
alone if and only if there is no white space around the input.  Answers to retrieval
calls keep their bytes in any case. -/
theorem compressOpenAi_framed_iff {bodyRaw : Bytes} {value : Value}
    (hvalue : valueFromSlice bodyRaw = some value) (authMode : AuthMode) :
    (∀ messages newBody manifest,
      (value.get (constant "messages")).bind Value.asArray = some messages →
      compressOpenAiChatLiveZone backend model bodyRaw authMode =
        .ok (.modified newBody manifest) →
      (Framed (ChatAllowed messages) bodyRaw newBody ↔ Trimmed bodyRaw)) ∧
    ∀ items, ((value.get (constant "input")).or
        (value.get (constant "messages"))).bind Value.asArray = some items →
      (∀ newBody manifest,
        compressOpenAiResponsesLiveZone backend model bodyRaw authMode =
          .ok (.modified newBody manifest) →
        (Framed (ResponsesAllowed (itemsField value) items) bodyRaw newBody ↔
          Trimmed bodyRaw)) ∧
      ∀ outcome, compressOpenAiResponsesLiveZone backend model bodyRaw authMode =
          .ok outcome →
        ∀ index item, items[index]? = some item → AnswersRetrieval items item →
          ∃ text,
            partBytes bodyRaw [.key (itemsField value), .index index] = some text ∧
            partBytes (outcome.body bodyRaw) [.key (itemsField value), .index index] =
              some text := by
  obtain ⟨document, rfl, hdepth, hdenote⟩ := valueFromSlice_eq_some_iff.mp hvalue
  refine ⟨fun messages newBody manifest hmessages hmodified => ?_, fun items hitems => ?_⟩
  · have hget : value.get (constant "messages") = some (.array messages) := by
      obtain ⟨field, hfield, harray⟩ := Option.bind_eq_some_iff.mp hmessages
      rw [hfield, Value.eq_array_of_asArray harray]
    obtain ⟨decisions, found, hrun⟩ :=
      compressOpenAiChat_settled backend model hvalue hget authMode
    obtain ⟨new, hallowed, _, hresult⟩ := hrun.exists_edit
    rw [hmodified] at hresult
    split_ifs at hresult
    · cases hresult
      exact framed_edit_iff hdepth hdenote hallowed
    · cases hresult
  · obtain ⟨decisions, found, hrun⟩ :=
      compressOpenAiResponses_settled backend model hvalue hitems authMode
    obtain ⟨new, hallowed, _, hresult⟩ := hrun.exists_edit
    constructor
    · intro newBody manifest hmodified
      rw [hmodified] at hresult
      split_ifs at hresult
      · cases hresult
        exact framed_edit_iff hdepth hdenote hallowed
      · cases hresult
    · intro outcome houtcome index item hitem hanswers
      rw [houtcome] at hresult
      cases hresult
      have hfound : value.at? [.key (itemsField value), .index index] = some item := by
        obtain ⟨list, hlist, harray⟩ := Option.bind_eq_some_iff.mp hitems
        simp [Value.at?, get_itemsField, hlist, harray, hitem]
      obtain ⟨text, htext⟩ := exists_partBytes hdenote hfound
      refine ⟨text, htext, ?_⟩
      split_ifs
      · exact (partBytes_edit (keeps_answer hallowed hitem hanswers)).trans htext
      · exact htext

set_option maxRecDepth 10000 in
theorem compressOpenAi_framed_longWord :
    Framed (ChatAllowed [userMessage (.string longWord)])
      (userBody (quote longWord).bytes) (userBody (ascii "\"x\"")) := by
  have hvalue : valueFromSlice (userBody (quote longWord).bytes) =
      some (.object [(constant "messages",
        .array [userMessage (.string longWord)])]) := by rfl
  have hmodified : compressOpenAiChatLiveZone terseBackend (constant "gpt-4o")
      (userBody (quote longWord).bytes) .payg =
        .ok (.modified (userBody (ascii "\"x\"")) ⟨1, 0, some 0,
          [⟨0, none, constant "user_string",
            .compressed strategyLogCompressor 512 1 512 1⟩]⟩) := by decide +kernel
  have htrimmed : Trimmed (userBody (quote longWord).bytes) := by
    rintro byte (hbyte | hbyte)
    · cases hbyte
      decide
    · have hlast : (userBody (quote longWord).bytes).getLast? = some closeBrace := by
        decide +kernel
      cases hlast.symm.trans hbyte
      decide
  exact ((compressOpenAi_framed_iff terseBackend (constant "gpt-4o") hvalue .payg).1
    _ _ _ rfl hmodified).mpr htrimmed

set_option maxRecDepth 10000 in
/-- White space in front of the body is lost. -/
theorem leadingSpace_dropped :
    compressOpenAiChatLiveZone terseBackend (constant "gpt-4o")
        (ascii " " ++ userBody (quote longWord).bytes) .payg =
      .ok (.modified (userBody (ascii "\"x\"")) ⟨1, 0, some 0,
        [⟨0, none, constant "user_string",
          .compressed strategyLogCompressor 512 1 512 1⟩]⟩) ∧
      ∀ allowed, ¬Framed allowed (ascii " " ++ userBody (quote longWord).bytes)
        (userBody (ascii "\"x\"")) := by
  refine ⟨by decide +kernel, fun allowed hframed => ?_⟩
  have hspace := space_of_framed hframed
  have hne : (takeSpace (userBody (ascii "\"x\""))).1.bytes ≠
      (takeSpace (ascii " " ++ userBody (quote longWord).bytes)).1.bytes := by
    decide +kernel
  exact hne (congrArg Space.bytes hspace)

/-!
## The manifest tells what was done

The manifest is collected apart from the replacements, but one decision feeds
both.  So its compressed blocks are the spliced ones, their figures are those of
the texts that were written, and every other block keeps its bytes and leaves no
trace in the store.
-/

variable (backend : Backend) {State : Type*} (model : Utf8String)
  (ccrStore : Option (CcrStore State))

/-- An outcome reports what was written for a slot: the output of the compressor with
its marker, counted before and after, and strictly smaller. -/
structure Reports (outcome : BlockOutcome) (swap : Swap) : Prop where
  reported : ∃ strategy compressed,
    dispatchCompressor backend swap.slot.contentText
        (backend.detectContentType swap.slot.contentText) = .compressed strategy compressed ∧
      swap.written =
        (maybeInjectCcrMarker backend swap.slot.contentText compressed ccrStore).1 ∧
      outcome = swap.slot.outcome (.compressed strategy swap.slot.contentText.bytes.length
        swap.written.bytes.length (backend.countText model swap.slot.contentText)
        (backend.countText model swap.written))
  fewer : backend.countText model swap.written <
    backend.countText model swap.slot.contentText

/-- The tokens that a swap saves. -/
def Swap.saving (swap : Swap) : ℕ :=
  backend.countText model swap.slot.contentText - backend.countText model swap.written

/-- What the outcome of a run says about the new body and the store. -/
structure ManifestExact (home : BlockOutcome → Path) (bodyRaw : Bytes) (store : State)
    (outcome : LiveZoneOutcome) (stored : State) (swaps : List Swap) : Prop where
  modified_iff : (∃ newBody manifest, outcome = .modified newBody manifest) ↔
    ∃ block ∈ outcome.manifest.blockOutcomes, block.action.isCompressed = true
  reports : List.Forall₂ (Reports backend model ccrStore)
    (outcome.manifest.blockOutcomes.filter fun block => block.action.isCompressed) swaps
  spliced : ∀ newBody manifest, outcome = .modified newBody manifest →
    rawValueFromString
      (splice bodyRaw 0 (sortReplacements (swaps.map Swap.replacement))) = some newBody
  tokensSaved_eq : outcome.manifest.tokensSaved = (swaps.map (Swap.saving backend model)).sum
  tokensSaved_pos : ∀ newBody manifest, outcome = .modified newBody manifest →
    0 < outcome.manifest.tokensSaved
  stored_eq : stored = swaps.foldl (storeOriginal backend ccrStore) store
  kept : ∀ block ∈ outcome.manifest.blockOutcomes, block.action.isCompressed = false →
    partBytes (outcome.body bodyRaw) (home block) = partBytes bodyRaw (home block)

variable {backend model ccrStore} {home : BlockOutcome → Path} {allowed : Path → Prop}
  {root : Located} {decisions : List Decision}
variable {swap : Swap}

theorem reports_of_decideSlot {slot : BlockSlot}
    (hswap : (decideSlot backend model ccrStore slot).2 = some swap) :
    Reports backend model ccrStore (decideSlot backend model ccrStore slot).1 swap := by
  obtain ⟨rfl, _, ⟨strategy, compressed, hdispatch, hwritten, haction⟩, hfewer⟩ :=
    accepted_of_decideBlock backend model ccrStore hswap
  exact ⟨⟨strategy, compressed, hdispatch, hwritten, congrArg swap.slot.outcome haction⟩,
    hfewer⟩

variable {decision : Decision}

theorem Settled.reports_swap (hsettled : Settled backend model ccrStore root home allowed decisions)
    (hdecision : decision ∈ decisions) (hswap : decision.2 = some swap) :
    Reports backend model ccrStore decision.1 swap := by
  obtain ⟨hsame, _⟩ := hsettled.swapped decision hdecision swap hswap
  have hdecided : (decideSlot backend model ccrStore swap.slot).2 = some swap := by
    rw [← hsame, hswap]
  rw [hsame]
  exact reports_of_decideSlot hdecided

theorem Settled.tail
    (hsettled : Settled backend model ccrStore root home allowed (decision :: decisions)) :
    Settled backend model ccrStore root home allowed decisions where
  reported := fun later hlater =>
    hsettled.reported later (List.mem_cons_of_mem _ hlater)
  swapped := fun later hlater => hsettled.swapped later (List.mem_cons_of_mem _ hlater)
  apart := (List.pairwise_cons.mp hsettled.apart).2

/-- The compressed blocks of the manifest report the swaps, in their order. -/
theorem Settled.forall_reports
    (hsettled : Settled backend model ccrStore root home allowed decisions) :
    List.Forall₂ (Reports backend model ccrStore)
      ((decisions.map Prod.fst).filter fun block => block.action.isCompressed)
      (decisions.filterMap Prod.snd) := by
  induction decisions with
  | nil => exact .nil
  | cons decision decisions ih =>
      have hreported := hsettled.reported decision List.mem_cons_self
      have hlater := ih hsettled.tail
      cases hswap : decision.2 with
      | none =>
          rw [hswap] at hreported
          rw [List.map_cons, List.filter_cons, if_neg (by simp [hreported]),
            List.filterMap_cons_none hswap]
          exact hlater
      | some swap =>
          rw [hswap] at hreported
          rw [List.map_cons, List.filter_cons, if_pos (by simp [hreported]),
            List.filterMap_cons_some hswap]
          exact .cons (hsettled.reports_swap List.mem_cons_self hswap) hlater

variable {outcome : BlockOutcome}

theorem savedBy_of_reports (hreports : Reports backend model ccrStore outcome swap) :
    CompressionManifest.savedBy outcome.action = some (swap.saving backend model) := by
  obtain ⟨⟨_, _, _, _, rfl⟩, _⟩ := hreports
  rfl

theorem savedBy_of_kept {action : BlockAction} (hkept : action.isCompressed = false) :
    CompressionManifest.savedBy action = none := by
  cases action <;> first | rfl | cases hkept

/-- The savings of the manifest are those of the swaps. -/
theorem Settled.savings
    (hsettled : Settled backend model ccrStore root home allowed decisions) :
    (decisions.filterMap fun decision =>
        CompressionManifest.savedBy decision.1.action) =
      (decisions.filterMap Prod.snd).map (Swap.saving backend model) := by
  induction decisions with
  | nil => rfl
  | cons decision decisions ih =>
      have hreported := hsettled.reported decision List.mem_cons_self
      cases hswap : decision.2 with
      | none =>
          rw [hswap] at hreported
          have hsaved := savedBy_of_kept hreported
          rw [List.filterMap_cons_none hswap, ← ih hsettled.tail]
          exact List.filterMap_cons_none hsaved
      | some swap =>
          have hsaved := savedBy_of_reports (hsettled.reports_swap List.mem_cons_self hswap)
          rw [List.filterMap_cons_some hswap, List.map_cons, ← ih hsettled.tail]
          exact List.filterMap_cons_some hsaved

theorem saving_pos (hreports : Reports backend model ccrStore outcome swap) :
    0 < swap.saving backend model :=
  Nat.sub_pos_of_lt hreports.fewer

/-- Settled runs have exact manifests. -/
theorem SettledRun.manifestExact {document : Document} {store : State}
    {manifest : CompressionManifest} {outcome : LiveZoneOutcome} {stored : State}
    (hrun : SettledRun backend model ccrStore home allowed document store decisions manifest
      (.ok outcome, stored)) :
    ∃ swaps, ManifestExact backend model ccrStore home document.render store outcome stored
      swaps := by
  obtain ⟨new, hallowed, hkept, hranges⟩ := hrun.settled.exists_edit
  have hcompressed := hrun.hasCompressedBlock
  have hresult := hrun.result_eq
  rw [finishBody_eq hranges hcompressed] at hresult
  obtain ⟨houtcome, hstored⟩ := Prod.mk.inj hresult
  have hmanifest : outcome.manifest = manifest := by
    rw [Except.ok.inj houtcome]
    split_ifs <;> rfl
  have hmodified : (∃ newBody found, outcome = .modified newBody found) ↔
      manifest.hasCompressedBlock = true := by
    rw [Except.ok.inj houtcome]
    split_ifs with hblock <;> simp [hblock]
  have hsaved : manifest.tokensSaved =
      ((decisions.filterMap Prod.snd).map (Swap.saving backend model)).sum := by
    rw [CompressionManifest.tokensSaved, hrun.outcomes, List.filterMap_map,
      ← hrun.settled.savings]
    rfl
  refine ⟨decisions.filterMap Prod.snd, ?_, ?_, ?_, ?_, ?_, hstored, ?_⟩
  · rw [hmodified, hmanifest, CompressionManifest.hasCompressedBlock, List.any_eq_true]
  · rw [hmanifest, hrun.outcomes]
    exact hrun.settled.forall_reports
  · intro newBody found heq
    have hblock := hmodified.mp ⟨newBody, found, heq⟩
    rw [heq, if_pos hblock] at houtcome
    cases houtcome
    rw [Document.splice_render hranges, rawValueFromString, parseDocument_eq_some_iff.mpr rfl]
    rfl
  · rw [hmanifest, hsaved]
  · intro newBody found heq
    have hblock := hmodified.mp ⟨newBody, found, heq⟩
    rw [hmanifest, hsaved]
    have hswaps : (decisions.filterMap Prod.snd).map (Swap.saving backend model) ≠ [] := by
      rw [hcompressed, List.isEmpty_map] at hblock
      intro hempty
      rw [List.map_eq_nil_iff.mp hempty] at hblock
      cases hblock
    refine List.sum_pos _ (fun saving hsaving => ?_) hswaps
    obtain ⟨swap, hswap, rfl⟩ := List.mem_map.mp hsaving
    obtain ⟨decision, hdecision, hsome⟩ := List.mem_filterMap.mp hswap
    exact saving_pos (hrun.settled.reports_swap hdecision hsome)
  · intro block hblock haction
    rw [hmanifest, hrun.outcomes] at hblock
    obtain ⟨decision, hdecision, rfl⟩ := List.mem_map.mp hblock
    have hnone : decision.2 = none := by
      have hreported := hrun.settled.reported decision hdecision
      rw [haction] at hreported
      exact Option.isNone_iff_eq_none.mp (Option.isSome_eq_false_iff.mp hreported.symm)
    rw [Except.ok.inj houtcome]
    split_ifs
    · exact partBytes_edit (hkept decision hdecision hnone)
    · rfl

/-! ## The dispatchers -/

variable (backend model)

end Legroom.LiveZone
