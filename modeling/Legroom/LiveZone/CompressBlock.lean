import Legroom.Ccr.InMemory
import Legroom.Lib.Json.Literal
import Legroom.Lib.Splice
import Legroom.LiveZone.Manifest

/-!
# Compressing one block

The dispatcher hands a block to the compressor of its content type, appends a
retrieval marker when a store is wired, and keeps the result only if the
tokenizer counts fewer tokens than before.  The compressors, the content
detector, the tokenizer and the hash are parameters.
-/

namespace Legroom.LiveZone

open Utf8

/-- What the dispatcher calls. -/
structure Backend where
  detectContentType : Utf8String → ContentType
  /-- The compressed text, and whether it was modified. -/
  smartCrusher : Utf8String → Utf8String × Bool
  /-- The compressed text, and what is reported as the original. -/
  logCompressor : Utf8String → Utf8String × Utf8String
  searchCompressor : Utf8String → Utf8String × Utf8String
  diffCompressor : Utf8String → Utf8String
  computeKey : Bytes → Utf8String
  /-- `get_tokenizer(model)`, then `count_text`. -/
  countText : Utf8String → Utf8String → ℕ

inductive DispatchResult where
  | noOp (contentType : Utf8String)
  | compressed (strategy compressed : Utf8String)
  | error (strategy error : Utf8String)
  deriving DecidableEq

variable (backend : Backend)

def strategySmartCrusher : Utf8String := constant "smart_crusher"
def strategyLogCompressor : Utf8String := constant "log_compressor"
def strategySearchCompressor : Utf8String := constant "search_compressor"
def strategyDiffCompressor : Utf8String := constant "diff_compressor"

def dispatchCompressor (text : Utf8String) (contentType : ContentType) :
    DispatchResult :=
  if text.bytes = [] then .noOp contentType.asStr
  else
    match contentType with
    | .jsonArray =>
        let result := backend.smartCrusher text
        if !result.2 then .noOp contentType.asStr
        else .compressed strategySmartCrusher result.1
    | .buildOutput =>
        let result := backend.logCompressor text
        if result.1 = result.2 then .noOp contentType.asStr
        else .compressed strategyLogCompressor result.1
    | .searchResults =>
        let result := backend.searchCompressor text
        if result.1 = result.2 then .noOp contentType.asStr
        else .compressed strategySearchCompressor result.1
    | .gitDiff =>
        let compressed := backend.diffCompressor text
        if compressed = text then .noOp contentType.asStr
        else .compressed strategyDiffCompressor compressed
    | .sourceCode => .noOp contentType.asStr
    | .plainText => .noOp contentType.asStr
    | .html => .noOp contentType.asStr

/-- The compressed text with its marker, and the hash in the marker. -/
def maybeInjectCcrMarker {State : Type*} (original compressed : Utf8String)
    (ccrStore : Option (CcrStore State)) : Utf8String × Option Utf8String :=
  match ccrStore with
  | none => (compressed, none)
  | some _ =>
      let hash := backend.computeKey original.bytes
      let marker := markerFor hash
      if compressed.bytes.getLast? = some Byte.lf then (compressed ++ marker, some hash)
      else (compressed ++ constant "\n" ++ marker, some hash)

/-- What the walk over the blocks has produced so far. -/
structure Progress (State : Type*) where
  replacements : List Replacement
  store : State

variable {State : Type*} (model : Utf8String) (ccrStore : Option (CcrStore State))

/-- A block as the planners describe it. -/
structure BlockSlot where
  contentText : Utf8String
  contentByteRange : ℕ × ℕ
  messageIndex : ℕ
  blockIndex : Option ℕ
  blockType : Utf8String
  deriving DecidableEq

def BlockSlot.outcome (slot : BlockSlot) (action : BlockAction) : BlockOutcome :=
  ⟨slot.messageIndex, slot.blockIndex, slot.blockType, action⟩

def compressOneBlock (slot : BlockSlot) (contentType : ContentType)
    (progress : Progress State) : BlockOutcome × Progress State :=
  let length := slot.contentText.bytes.length
  -- Empty content always reaches the dispatch, which does nothing with it.
  if slot.contentText.bytes ≠ [] ∧ length < thresholdFor contentType then
    (slot.outcome (.belowByteThreshold contentType.asStr length
      (thresholdFor contentType)), progress)
  else
    match dispatchCompressor backend slot.contentText contentType with
    | .noOp contentType => (slot.outcome (.noCompressionApplied contentType), progress)
    | .compressed strategy compressed =>
        let injected := maybeInjectCcrMarker backend slot.contentText compressed ccrStore
        let compressedBytes := injected.1.bytes.length
        let originalTokens := backend.countText model slot.contentText
        let compressedTokens := backend.countText model injected.1
        if compressedTokens ≥ originalTokens then
          (slot.outcome (.rejectedNotSmaller strategy length compressedBytes
            originalTokens compressedTokens), progress)
        else
          let store :=
            match ccrStore, injected.2 with
            | some ccrStore, some hash =>
                ccrStore.put progress.store hash slot.contentText
            | _, _ => progress.store
          let replacement : Replacement :=
            ⟨slot.contentByteRange.1, slot.contentByteRange.2,
              (Json.quote injected.1).bytes⟩
          (slot.outcome (.compressed strategy length compressedBytes originalTokens
              compressedTokens),
            ⟨progress.replacements ++ [replacement], store⟩)
    | .error strategy error => (slot.outcome (.compressorError strategy error), progress)

/-!
## Runs over blocks

What the dispatcher does with a block does not depend on the blocks before it.
So a run over the blocks of a request is a list of decisions: the replacements
are the swaps that were decided, in the order of the blocks, and the store has
received exactly their originals.
-/

/-- A decision to write another text in the place of a block. -/
structure Swap where
  slot : BlockSlot
  written : Utf8String

def Swap.replacement (swap : Swap) : Replacement :=
  ⟨swap.slot.contentByteRange.1, swap.slot.contentByteRange.2,
    (Json.quote swap.written).bytes⟩

variable (backend : Backend) {State : Type*} (model : Utf8String)
  (ccrStore : Option (CcrStore State))

/-- What is decided for a block, whatever happened before it. -/
def decideBlock (slot : BlockSlot) (contentType : ContentType) :
    BlockAction × Option Swap :=
  let length := slot.contentText.bytes.length
  if slot.contentText.bytes ≠ [] ∧ length < thresholdFor contentType then
    (.belowByteThreshold contentType.asStr length (thresholdFor contentType), none)
  else
    match dispatchCompressor backend slot.contentText contentType with
    | .noOp contentType => (.noCompressionApplied contentType, none)
    | .compressed strategy compressed =>
        let written := (maybeInjectCcrMarker backend slot.contentText compressed ccrStore).1
        let originalTokens := backend.countText model slot.contentText
        let compressedTokens := backend.countText model written
        if compressedTokens ≥ originalTokens then
          (.rejectedNotSmaller strategy length written.bytes.length originalTokens
            compressedTokens, none)
        else
          (.compressed strategy length written.bytes.length originalTokens
            compressedTokens, some ⟨slot, written⟩)
    | .error strategy error => (.compressorError strategy error, none)

/-- Keep the original of a swapped block in the store, if there is one. -/
def storeOriginal (store : State) (swap : Swap) : State :=
  match ccrStore with
  | some ccrStore =>
      ccrStore.put store (backend.computeKey swap.slot.contentText.bytes)
        swap.slot.contentText
  | none => store

def Progress.recordAll (progress : Progress State) (swaps : List Swap) :
    Progress State :=
  ⟨progress.replacements ++ swaps.map Swap.replacement,
    swaps.foldl (storeOriginal backend ccrStore) progress.store⟩

theorem snd_maybeInjectCcrMarker (original compressed : Utf8String) :
    (maybeInjectCcrMarker backend original compressed ccrStore).2 =
      ccrStore.map fun _ => backend.computeKey original.bytes := by
  cases ccrStore with
  | none => rfl
  | some store =>
      rw [maybeInjectCcrMarker]
      simp only [Option.map_some]
      split_ifs <;> rfl

variable (slot : BlockSlot)

/-- `compress_one_block` takes the decision and records it. -/
theorem compressOneBlock_eq (contentType : ContentType) (progress : Progress State) :
    compressOneBlock backend model ccrStore slot contentType progress =
      (slot.outcome (decideBlock backend model ccrStore slot contentType).1,
        progress.recordAll backend ccrStore
          (decideBlock backend model ccrStore slot contentType).2.toList) := by
  have hkept : progress.recordAll backend ccrStore [] = progress := by
    simp [Progress.recordAll]
  rw [compressOneBlock, decideBlock]
  by_cases hbelow : slot.contentText.bytes ≠ [] ∧
      slot.contentText.bytes.length < thresholdFor contentType
  · rw [if_pos hbelow, if_pos hbelow, Option.toList_none, hkept]
  · rw [if_neg hbelow, if_neg hbelow]
    cases dispatchCompressor backend slot.contentText contentType with
    | noOp contentType => rw [Option.toList_none, hkept]
    | error strategy error => rw [Option.toList_none, hkept]
    | compressed strategy compressed =>
        simp only
        split_ifs with hgate
        · rw [Option.toList_none, hkept]
        · rw [snd_maybeInjectCcrMarker]
          cases ccrStore <;>
            simp [Progress.recordAll, Swap.replacement, storeOriginal]

/-- What is known of a block that is swapped, and of the report on it. -/
structure Accepted (slot : BlockSlot) (contentType : ContentType) (action : BlockAction)
    (swap : Swap) : Prop where
  slot_eq : swap.slot = slot
  threshold : thresholdFor contentType ≤ slot.contentText.bytes.length
  dispatched : ∃ strategy compressed,
    dispatchCompressor backend slot.contentText contentType =
        .compressed strategy compressed ∧
      swap.written =
        (maybeInjectCcrMarker backend slot.contentText compressed ccrStore).1 ∧
      action = .compressed strategy slot.contentText.bytes.length
        swap.written.bytes.length (backend.countText model slot.contentText)
        (backend.countText model swap.written)
  fewer : backend.countText model swap.written <
    backend.countText model slot.contentText

theorem accepted_of_decideBlock {slot : BlockSlot} {contentType : ContentType}
    {swap : Swap}
    (hswap : (decideBlock backend model ccrStore slot contentType).2 = some swap) :
    Accepted backend model ccrStore slot contentType
      (decideBlock backend model ccrStore slot contentType).1 swap := by
  rw [decideBlock] at hswap ⊢
  by_cases hbelow : slot.contentText.bytes ≠ [] ∧
      slot.contentText.bytes.length < thresholdFor contentType
  · rw [if_pos hbelow] at hswap
    cases hswap
  · rw [if_neg hbelow] at hswap ⊢
    cases hdispatch : dispatchCompressor backend slot.contentText contentType with
    | noOp contentType =>
        rw [hdispatch] at hswap
        cases hswap
    | error strategy error =>
        rw [hdispatch] at hswap
        cases hswap
    | compressed strategy compressed =>
        rw [hdispatch] at hswap
        simp only at hswap ⊢
        split_ifs at hswap ⊢ with hgate
        cases hswap
        have hcontent : slot.contentText.bytes ≠ [] := by
          intro hempty
          rw [dispatchCompressor.eq_def, if_pos hempty] at hdispatch
          cases hdispatch
        exact {
          slot_eq := rfl
          threshold := Nat.not_lt.mp fun hlt => hbelow ⟨hcontent, hlt⟩
          dispatched := ⟨strategy, compressed, hdispatch, rfl, rfl⟩
          fewer := Nat.not_le.mp hgate }

/-- A block is reported as compressed exactly if it is swapped. -/
theorem isCompressed_decideBlock (contentType : ContentType) :
    (decideBlock backend model ccrStore slot contentType).1.isCompressed =
      (decideBlock backend model ccrStore slot contentType).2.isSome := by
  rw [decideBlock]
  split_ifs
  · rfl
  · cases dispatchCompressor backend slot.contentText contentType with
    | noOp contentType => rfl
    | error strategy error => rfl
    | compressed strategy compressed =>
        simp only
        split_ifs <;> rfl

/-- The report on a block, and the swap if it is accepted. -/
abbrev Decision := BlockOutcome × Option Swap

/-- The decision for a block of detected content. -/
def decideSlot (slot : BlockSlot) : Decision :=
  let decision := decideBlock backend model ccrStore slot
    (backend.detectContentType slot.contentText)
  (slot.outcome decision.1, decision.2)

theorem isCompressed_decideSlot :
    (decideSlot backend model ccrStore slot).1.action.isCompressed =
      (decideSlot backend model ccrStore slot).2.isSome :=
  isCompressed_decideBlock backend model ccrStore slot _

/-- A swapped slot has enough text for every compressor. -/
theorem slot_of_decideSlot {slot : BlockSlot} {swap : Swap}
    (hswap : (decideSlot backend model ccrStore slot).2 = some swap) :
    swap.slot = slot ∧ 512 ≤ slot.contentText.bytes.length := by
  have haccepted := accepted_of_decideBlock backend model ccrStore hswap
  have hthreshold := haccepted.threshold
  rw [thresholdFor_eq] at hthreshold
  exact ⟨haccepted.slot_eq, hthreshold⟩

/-! ## Whole runs -/

variable {A : Type*}

/-- Take the blocks in order. -/
def runBlocks (step : A → Progress State → BlockOutcome × Progress State) :
    List A → Progress State → List BlockOutcome × Progress State
  | [], progress => ([], progress)
  | block :: blocks, progress =>
      let first := step block progress
      let later := runBlocks step blocks first.2
      (first.1 :: later.1, later.2)

theorem Progress.recordAll_append (progress : Progress State) (left right : List Swap) :
    progress.recordAll backend ccrStore (left ++ right) =
      (progress.recordAll backend ccrStore left).recordAll backend ccrStore right := by
  simp [Progress.recordAll]

/-- If each step decides on its own, so does the run. -/
theorem runBlocks_eq {step : A → Progress State → BlockOutcome × Progress State}
    {decide : A → BlockOutcome × Option Swap}
    (hstep : ∀ block progress, step block progress =
      ((decide block).1, progress.recordAll backend ccrStore (decide block).2.toList))
    (blocks : List A) (progress : Progress State) :
    runBlocks step blocks progress =
      (blocks.map fun block => (decide block).1,
        progress.recordAll backend ccrStore
          (blocks.filterMap fun block => (decide block).2)) := by
  induction blocks generalizing progress with
  | nil => simp [runBlocks, Progress.recordAll]
  | cons block blocks ih =>
      rw [runBlocks, hstep, ih, ← Progress.recordAll_append, List.map_cons,
        List.filterMap_cons]
      cases (decide block).2 <;> rfl

end Legroom.LiveZone
