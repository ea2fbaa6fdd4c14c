import Legroom.Lib.Python.Dict
import Legroom.Proxy.SseByteBuffer
import Legroom.Transforms.LosslessRouter
import Legroom.Transforms.TagProtector

/-!
# Batches of small units

Small units of one kind are compressed by one call of the router.  Each is between tags of its
own, and its retrieval markers are placeholders.  The answer is taken apart only if tags and
placeholders are in their places.
-/

namespace Legroom.Transforms

open Python
open LosslessRouter (CompressionStrategy)

namespace Batches

structure CompressionUnit where
  text : Text
  provider : Text
  endpoint : Text
  role : Text
  itemType : Text
  cacheZone : Text
  isMutable : Bool
  context : Text
  question : Option Text
  bias : Number
  minBytes : ℤ

structure RoutedCompressionUnit (Slot : Type) where
  unit : CompressionUnit
  slot : Slot

structure CompressionBatchEntry (Slot : Type) where
  entryId : Text
  routed : RoutedCompressionUnit Slot

structure CompressionBatch (Slot : Type) where
  entries : List (CompressionBatchEntry Slot)
  textBytes : ℕ

/-- `text.encode("utf-8", errors="replace")` -/
def encodeReplace (text : Text) : Bytes :=
  text.flatMap fun char =>
    if 0xD800 ≤ char && char ≤ 0xDFFF then [0x3F] else encodeChar char

def textBytes (text : Text) : ℕ := (encodeReplace text).length

structure CompatibilityKey where
  provider : Text
  endpoint : Text
  role : Text
  cacheZone : Text
  isMutable : Bool
  context : Text
  question : Option Text
  /-- Equal numbers are the same. -/
  bias : Number
deriving DecidableEq

section

variable {Slot : Type}

def compatibilityKey (entry : CompressionBatchEntry Slot) : CompatibilityKey :=
  let unit := entry.routed.unit
  ⟨unit.provider, unit.endpoint, unit.role, unit.cacheZone, unit.isMutable, unit.context,
    unit.question, unit.bias.exact⟩

/-! ## Building batches -/

/-- The batches and skipped entries so far, and what waits for the next batch. -/
structure BatchState (Slot : Type) where
  batches : List (CompressionBatch Slot)
  skipped : List (CompressionBatchEntry Slot)
  pending : List (CompressionBatchEntry Slot)
  pendingBytes : ℕ
  pendingKey : Option CompatibilityKey

def BatchState.init : BatchState Slot := ⟨[], [], [], 0, none⟩

variable (minBatchBytes maxBatchBytes maxBatchUnits : ℤ)

def BatchState.flush (state : BatchState Slot) : BatchState Slot :=
  if state.pending.isEmpty then state
  else if minBatchBytes ≤ state.pendingBytes then
    ⟨state.batches ++ [⟨state.pending, state.pendingBytes⟩], state.skipped, [], 0, none⟩
  else ⟨state.batches, state.skipped ++ state.pending, [], 0, none⟩

/-- The entry waits for the next batch. -/
def BatchState.push (state : BatchState Slot) (entry : CompressionBatchEntry Slot) :
    BatchState Slot :=
  { state with
    pending := state.pending ++ [entry]
    pendingBytes := state.pendingBytes + textBytes entry.routed.unit.text
    pendingKey := some (compatibilityKey entry) }

def BatchState.step (state : BatchState Slot) (entry : CompressionBatchEntry Slot) :
    BatchState Slot :=
  let entryBytes := textBytes entry.routed.unit.text
  if minBatchBytes ≤ entryBytes ∨ maxBatchBytes < entryBytes then
    let flushed := state.flush minBatchBytes
    { flushed with skipped := flushed.skipped ++ [entry] }
  else
    let ready :=
      if !state.pending.isEmpty ∧ (some (compatibilityKey entry) ≠ state.pendingKey ∨
          maxBatchUnits ≤ state.pending.length ∨
          maxBatchBytes < (state.pendingBytes : ℤ) + entryBytes) then
        state.flush minBatchBytes
      else state
    let pushed := ready.push entry
    if pushed.pending.length = maxBatchUnits ∨ (pushed.pendingBytes : ℤ) = maxBatchBytes then
      pushed.flush minBatchBytes
    else pushed

/-- `build_compression_batches`, unless it raises -/
def buildCompressionBatches (entries : List (CompressionBatchEntry Slot)) :
    Option (List (CompressionBatch Slot) × List (CompressionBatchEntry Slot)) :=
  if minBatchBytes ≤ 0 then none
  else if maxBatchBytes < minBatchBytes then none
  else if maxBatchUnits ≤ 0 then none
  else
    let state := (entries.foldl (BatchState.step minBatchBytes maxBatchBytes maxBatchUnits)
      .init).flush minBatchBytes
    some (state.batches, state.skipped)

end

/-! ## Markers -/

/-- What is behind a retrieval phrase at the start of a text. -/
def phraseBehind (shown : Text) : Option Text :=
  if text "Retrieve more: hash=" <+: shown then some (shown.drop 20)
  else if text "Retrieve original: hash=" <+: shown then some (shown.drop 24)
  else if text "<<ccr:" <+: shown then
    let hash := (shown.drop 6).takeWhile (· != codePoint '>')
    let behind := (shown.drop 6).dropWhile (· != codePoint '>')
    if !hash.isEmpty ∧ text ">>" <+: behind then some (behind.drop 2) else none
  else none

/-- What is behind the last phrase that begins on the first line. -/
def lastPhraseBehind : Text → Option Text
  | [] => none
  | char :: rest =>
      if char = newline then none else (lastPhraseBehind rest).or (phraseBehind (char :: rest))

/-- The length of the marker that begins at a line, `_CCR_MARKER_RE`. -/
def markerLength (line : Text) : Option ℕ :=
  (lastPhraseBehind line).map fun behind => line.length - (behind.dropWhile (· != newline)).length

inductive Piece where
  | marker (text : Text)
  | char (char : CodePoint)

/-- A text cut into markers and other characters.  The first of them may belong to a marker
already. -/
def piecesFrom : Bool → ℕ → Text → List Piece
  | _, _, [] => []
  | _, skip + 1, char :: rest => piecesFrom (char = newline) skip rest
  | atStart, 0, char :: rest =>
      match if atStart then markerLength (char :: rest) else none with
      | some length =>
          .marker ((char :: rest).take length) :: piecesFrom false (length - 1) rest
      | none => .char char :: piecesFrom (char = newline) 0 rest

def pieces (shown : Text) : List Piece := piecesFrom true 0 shown

/-- `_CCR_MARKER_RE.search` -/
def hasMarker (shown : Text) : Bool :=
  (pieces shown).any fun
    | .marker _ => true
    | .char _ => false

def ccrPlaceholder (nonce : Text) (entryIndex markerIndex : ℕ) : Text :=
  text "[[LEGROOM_BATCH_CCR_" ++ nonce ++ text "_" ++ decimalText entryIndex ++ text "_" ++
    decimalText markerIndex ++ text "]]"

/-- A marker that a placeholder stands for. -/
structure MarkerBlock where
  placeholder : Text
  entryIndex : ℕ
  marker : Text

/-- The markers of an entry replaced, from a marker index on. -/
def replaceMarkers (nonce : Text) (entryIndex : ℕ) : ℕ → List Piece → Text × List MarkerBlock
  | _, [] => ([], [])
  | markerIndex, .marker marker :: rest =>
      let placeholder := ccrPlaceholder nonce entryIndex markerIndex
      let replaced := replaceMarkers nonce entryIndex (markerIndex + 1) rest
      (placeholder ++ replaced.1, ⟨placeholder, entryIndex, marker⟩ :: replaced.2)
  | markerIndex, .char char :: rest =>
      let replaced := replaceMarkers nonce entryIndex markerIndex rest
      (char :: replaced.1, replaced.2)

section

variable {Slot : Type}

/-- The texts with their markers replaced. -/
def protectedEntries (nonce : Text) (batch : CompressionBatch Slot) :
    List (Text × List MarkerBlock) :=
  batch.entries.mapIdx fun entryIndex entry =>
    replaceMarkers nonce entryIndex 0 (pieces entry.routed.unit.text)

/-- `marker_blocks`, keyed by the placeholders -/
def markerBlocks (nonce : Text) (batch : CompressionBatch Slot) : Dict Text (ℕ × Text) :=
  ((protectedEntries nonce batch).flatMap (·.2)).foldl
    (fun blocks block => blocks.set block.placeholder (block.entryIndex, block.marker)) .empty

/-! ## Envelopes -/

def hexdigest (bytes : Bytes) : Text :=
  (Sha256.digest bytes).toList.flatMap fun byte =>
    [codePoint (Nat.digitChar (byte.toNat / 16)), codePoint (Nat.digitChar (byte.toNat % 16))]

def batchNonce (batch : CompressionBatch Slot) : Text :=
  (hexdigest (batch.entries.flatMap fun entry =>
    encodeReplace entry.entryId ++ [0] ++ encodeReplace entry.routed.unit.text ++ [0])).take 12

def openTag (nonce : Text) (entry : CompressionBatchEntry Slot) : Text :=
  text "<legroom-batch-" ++ nonce ++ text "-" ++ entry.entryId ++ text ">"

def closeTag (nonce : Text) (entry : CompressionBatchEntry Slot) : Text :=
  text "</legroom-batch-" ++ nonce ++ text "-" ++ entry.entryId ++ text ">"

def batchEnvelope (batch : CompressionBatch Slot) (nonce : Text) (texts : List Text) : Text :=
  joinLines (List.zipWith (fun entry text =>
    openTag nonce entry ++ text ++ closeTag nonce entry) batch.entries texts)

/-- The text before the first match of a needle, and behind it. -/
def cutAt (needle : Text) : Text → Option (Text × Text)
  | [] => if needle.isEmpty then some ([], []) else none
  | first :: rest =>
      if needle <+: first :: rest then some ([], (first :: rest).drop needle.length)
      else (cutAt needle rest).map fun cut => (first :: cut.1, cut.2)

variable (tables : CharTables)

/-- The bodies of the entries, and what is behind them. -/
def parseEntries (nonce : Text) :
    List (CompressionBatchEntry Slot) → Text → Option (List Text × Text)
  | [], shown => some ([], shown)
  | entry :: entries, shown => do
      let tagged := shown.dropWhile tables.isSpace
      if openTag nonce entry <+: tagged then
        let (value, behind) ←
          cutAt (closeTag nonce entry) (tagged.drop (openTag nonce entry).length)
        let (values, rest) ← parseEntries nonce entries behind
        some (value :: values, rest)
      else none

/-- `_parse_batch_envelope` -/
def parseBatchEnvelope (shown : Text) (batch : CompressionBatch Slot) (nonce : Text) :
    Option (List Text) := do
  let (values, rest) ← parseEntries tables nonce batch.entries shown
  if (strip tables rest).isEmpty then some values else none

end

/-! ## Tags -/

/-- A text as a string of bytes, unless it has a surrogate. -/
def utf8String (shown : Text) : Option Bytes :=
  if Utf8.Valid (encode shown) then some (encode shown) else none

/-- `protect_tags` for tags with exposed contents, unless it raises -/
def protectTags (shown : Text) : Option (Text × List (Text × Text)) := do
  let bytes ← utf8String shown
  let (cleaned, blocks, _) := Transforms.protectTags bytes true
  some (← decodeUtf8 cleaned, ← blocks.mapM fun block => do
    some (← decodeUtf8 block.1, ← decodeUtf8 block.2))

/-- `restore_tags`, unless it raises -/
def restoreTags (shown : Text) (blocks : List (Text × Text)) : Option Text := do
  let bytes ← utf8String shown
  decodeUtf8 (Transforms.restoreTags bytes (← blocks.mapM fun block => do
    some (← utf8String block.1, ← utf8String block.2)))

/-! ## The router -/

def strategyValue : CompressionStrategy → Text
  | .codeAware => text "code_aware"
  | .smartCrusher => text "smart_crusher"
  | .search => text "search"
  | .log => text "log"
  | .kompress => text "kompress"
  | .text => text "text"
  | .diff => text "diff"
  | .html => text "html"
  | .tabular => text "tabular"
  | .config => text "config"
  | .mixed => text "mixed"
  | .passthrough => text "passthrough"

def lossyUnmarkedStrategies : List CompressionStrategy := [.kompress, .text, .codeAware]

structure RouterCompressionResult where
  compressed : Text
  strategyUsed : CompressionStrategy

/-- A call of the router, with the ratio that is set for it. -/
structure RouterCall where
  content : Text
  context : Text
  question : Option Text
  bias : Number
  targetRatio : Option ℚ

structure UnitCompressionResult where
  original : Text
  compressed : Text
  isModified : Bool
  tokensBefore : ℤ
  tokensAfter : ℤ
  tokensSaved : ℤ
  transformsApplied : List Text
  strategy : Text
  reason : Option Text
  routerResult : Option RouterCompressionResult
  textBytes : ℕ
  minBytes : ℤ
  reasonCategory : Text

section

variable {Slot : Type} (tables : CharTables) (countText : Text → ℤ)

/-- The entries as they were. -/
def passthroughBatchResults (batch : CompressionBatch Slot) (reason : Text)
    (routerResult : Option RouterCompressionResult) : List (Slot × UnitCompressionResult) :=
  let strategy := strategyValue ((routerResult.map (·.strategyUsed)).getD .passthrough)
  batch.entries.map fun entry =>
    let unit := entry.routed.unit
    (entry.routed.slot, {
      original := unit.text
      compressed := unit.text
      isModified := false
      tokensBefore := countText unit.text
      tokensAfter := countText unit.text
      tokensSaved := 0
      transformsApplied := []
      strategy := strategy
      reason := some reason
      routerResult := routerResult
      textBytes := textBytes unit.text
      minBytes := unit.minBytes
      reasonCategory := reason })

def isStructuredShellOutput (shown : Text) : Bool :=
  let lines := Proxy.SseByteBuffer.splitlines shown
  3 ≤ (lines.filter fun line => !(strip tables line).isEmpty).length

/-- A lossy result without a marker for the output of a tool that has three lines. -/
def isUnrecoverable (unit : CompressionUnit) (strategy : CompressionStrategy)
    (replacement : Text) : Bool :=
  unit.role = text "tool" && unit.itemType = text "local_shell_call_output" &&
    isStructuredShellOutput tables unit.text && lossyUnmarkedStrategies.contains strategy &&
    !hasMarker replacement

/-- A result of an entry that is not used. -/
def rejected (unit : CompressionUnit) (result : RouterCompressionResult) (replacement : Text)
    (reason category : Text) : UnitCompressionResult where
  original := unit.text
  compressed := replacement
  isModified := false
  tokensBefore := countText unit.text
  tokensAfter := countText replacement
  tokensSaved := 0
  transformsApplied := []
  strategy := strategyValue result.strategyUsed
  reason := some reason
  routerResult := some result
  textBytes := textBytes unit.text
  minBytes := unit.minBytes
  reasonCategory := category

/-- The result of an entry with its replacement. -/
def entryResult (result : RouterCompressionResult) (unit : CompressionUnit) (replacement : Text) :
    UnitCompressionResult :=
  if isUnrecoverable tables unit result.strategyUsed replacement then
    rejected countText unit result replacement (text "lossy_unrecoverable_tool_output")
      (text "other")
  else if countText unit.text ≤ countText replacement then
    rejected countText unit result replacement (text "rejected_not_smaller")
      (text "rejected_not_smaller")
  else {
    original := unit.text
    compressed := replacement
    isModified := true
    tokensBefore := countText unit.text
    tokensAfter := countText replacement
    tokensSaved := countText unit.text - countText replacement
    transformsApplied :=
      [text "router:" ++ unit.provider ++ text ":" ++ unit.endpoint ++ text ":" ++ unit.itemType ++
        text ":" ++ strategyValue result.strategyUsed, strategyValue result.strategyUsed]
    strategy := strategyValue result.strategyUsed
    reason := none
    routerResult := some result
    textBytes := textBytes unit.text
    minBytes := unit.minBytes
    reasonCategory := text "applied" }

/-- The placeholders of the markers replaced, one after the other. -/
def putMarkers (blocks : List (Text × ℕ × Text)) (values : List Text) : List Text :=
  blocks.foldl (fun values block => values.modify block.2.1 (replaceAll block.1 block.2.2)) values

-- What the router returns, unless it raises.
variable (router : RouterCall → Option RouterCompressionResult)

/-- The call of the router.  Without entries there is no context for it. -/
def callRouter (batch : CompressionBatch Slot) (targetRatio : Option ℚ) (content : Text) :
    Option RouterCompressionResult := do
  let entry ← batch.entries.head?
  let unit := entry.routed.unit
  router ⟨content, unit.context, unit.question, unit.bias, targetRatio⟩

/-- `compress_batch_with_router`, unless the tag protector raises -/
def compressBatchWithRouter (batch : CompressionBatch Slot) (targetRatio : Option ℚ) :
    Option (List (Slot × UnitCompressionResult)) := do
  let nonce := batchNonce batch
  let blocks := (markerBlocks nonce batch).entries
  let (shielded, tagBlocks) ←
    protectTags (batchEnvelope batch nonce ((protectedEntries nonce batch).map (·.1)))
  match callRouter router batch targetRatio shielded with
  | none => some (passthroughBatchResults countText batch (text "batch_router_error") none)
  | some result =>
      let passthrough := fun reason => passthroughBatchResults countText batch reason (some result)
      if result.compressed.isEmpty ∨ result.compressed = shielded then
        some (passthrough (text "router_no_change"))
      else if (tagBlocks.map (·.1) ++ blocks.map (·.1)).any
          (fun placeholder => countAll placeholder result.compressed ≠ 1) then
        some (passthrough (text "batch_invalid"))
      else do
        let restored ← restoreTags result.compressed tagBlocks
        match parseBatchEnvelope tables restored batch nonce with
        | none => some (passthrough (text "batch_invalid"))
        | some values =>
            if blocks.any fun block => countAll block.1 (values.getD block.2.1 []) ≠ 1 then
              some (passthrough (text "batch_invalid"))
            else
              some (List.zipWith (fun entry replacement =>
                (entry.routed.slot, entryResult tables countText result entry.routed.unit
                  replacement)) batch.entries (putMarkers blocks values))

end

end Batches

/-!
## Which entries are in a batch

A run over the entries keeps those that wait for the next batch of one kind and within the
limits.  They become a batch or are skipped, all together.
-/

namespace Batches

variable {Slot : Type}

/-- The entries of batches and the skipped ones, in order. -/
inductive Grouping : List (CompressionBatchEntry Slot) → List (CompressionBatch Slot) →
    List (CompressionBatchEntry Slot) → Prop where
  | nil : Grouping [] [] []
  | batch {entries skipped : List (CompressionBatchEntry Slot)}
      {batches : List (CompressionBatch Slot)} (hgrouping : Grouping entries batches skipped)
      (batch : CompressionBatch Slot) :
      Grouping (entries ++ batch.entries) (batches ++ [batch]) skipped
  | skip {entries skipped : List (CompressionBatchEntry Slot)}
      {batches : List (CompressionBatch Slot)} (hgrouping : Grouping entries batches skipped)
      (entry : CompressionBatchEntry Slot) :
      Grouping (entries ++ [entry]) batches (skipped ++ [entry])

def totalBytes (entries : List (CompressionBatchEntry Slot)) : ℕ :=
  (entries.map fun entry => textBytes entry.routed.unit.text).sum

/-- A batch within its limits. -/
structure Fits (minBatchBytes maxBatchBytes maxBatchUnits : ℤ) (batch : CompressionBatch Slot) :
    Prop where
  nonempty : batch.entries ≠ []
  textBytes : batch.textBytes = totalBytes batch.entries
  floor : minBatchBytes ≤ batch.textBytes
  ceiling : batch.textBytes ≤ maxBatchBytes
  units : batch.entries.length ≤ maxBatchUnits
  homogeneous : ∀ entry ∈ batch.entries, ∀ other ∈ batch.entries,
    compatibilityKey entry = compatibilityKey other

variable {entries skipped : List (CompressionBatchEntry Slot)}
  {batches : List (CompressionBatch Slot)}

theorem Grouping.skipAll (hgrouping : Grouping entries batches skipped)
    (more : List (CompressionBatchEntry Slot)) :
    Grouping (entries ++ more) batches (skipped ++ more) := by
  induction more generalizing entries skipped with
  | nil =>
      rw [List.append_nil, List.append_nil]
      exact hgrouping
  | cons entry more ih =>
      rw [List.append_cons entries, List.append_cons skipped]
      exact ih (hgrouping.skip entry)

theorem Grouping.perm (hgrouping : Grouping entries batches skipped) :
    entries.Perm (batches.flatMap (·.entries) ++ skipped) := by
  induction hgrouping with
  | nil => exact .refl _
  | batch hgrouping batch ih =>
      rw [List.flatMap_append, List.flatMap_singleton, List.append_assoc]
      exact (ih.append_right _).trans (by
        rw [List.append_assoc]
        exact List.perm_append_comm.append_left _)
  | skip hgrouping entry ih =>
      rw [← List.append_assoc]
      exact ih.append_right _

theorem Grouping.batches_sublist (hgrouping : Grouping entries batches skipped) :
    (batches.flatMap (·.entries)).Sublist entries := by
  induction hgrouping with
  | nil => exact .refl _
  | batch hgrouping batch ih =>
      rw [List.flatMap_append, List.flatMap_singleton]
      exact ih.append_right _
  | skip hgrouping entry ih => exact ih.trans (List.sublist_append_left _ _)

theorem Grouping.skipped_sublist (hgrouping : Grouping entries batches skipped) :
    skipped.Sublist entries := by
  induction hgrouping with
  | nil => exact .refl _
  | batch hgrouping batch ih => exact ih.trans (List.sublist_append_left _ _)
  | skip hgrouping entry ih => exact ih.append_right _

theorem totalBytes_append (left right : List (CompressionBatchEntry Slot)) :
    totalBytes (left ++ right) = totalBytes left + totalBytes right := by
  rw [totalBytes, List.map_append, List.sum_append]
  rfl

section

variable {minBatchBytes maxBatchBytes maxBatchUnits : ℤ}

/-- What holds of the state behind some entries. -/
structure Invariant (minBatchBytes maxBatchBytes maxBatchUnits : ℤ)
    (consumed : List (CompressionBatchEntry Slot)) (state : BatchState Slot) : Prop where
  grouping : ∃ entries, Grouping entries state.batches state.skipped ∧
    consumed = entries ++ state.pending
  fits : ∀ batch ∈ state.batches, Fits minBatchBytes maxBatchBytes maxBatchUnits batch
  bytes : state.pendingBytes = totalBytes state.pending
  ceiling : state.pendingBytes ≤ maxBatchBytes
  units : state.pending.length ≤ maxBatchUnits
  key : ∀ entry ∈ state.pending, some (compatibilityKey entry) = state.pendingKey

theorem invariant_init (hmin : 0 < minBatchBytes) (hmax : minBatchBytes ≤ maxBatchBytes)
    (hunits : 0 < maxBatchUnits) :
    Invariant minBatchBytes maxBatchBytes maxBatchUnits [] (.init : BatchState Slot) where
  grouping := ⟨[], .nil, rfl⟩
  fits := fun _ hbatch => absurd hbatch List.not_mem_nil
  bytes := rfl
  ceiling := (hmin.le.trans hmax)
  units := hunits.le
  key := fun _ hentry => absurd hentry List.not_mem_nil

variable {consumed : List (CompressionBatchEntry Slot)} {state : BatchState Slot}
  (hmin : 0 < minBatchBytes) (hmax : minBatchBytes ≤ maxBatchBytes) (hunits : 0 < maxBatchUnits)
  (hstate : Invariant minBatchBytes maxBatchBytes maxBatchUnits consumed state)

include hmin hmax hunits hstate in
/-- Behind a flush nothing waits. -/
theorem Invariant.flush :
    Invariant minBatchBytes maxBatchBytes maxBatchUnits consumed (state.flush minBatchBytes) ∧
      (state.flush minBatchBytes).pending = [] := by
  obtain ⟨entries, hgrouping, rfl⟩ := hstate.grouping
  rw [BatchState.flush]
  split_ifs with hempty hfloor
  · exact ⟨hstate, List.isEmpty_iff.mp hempty⟩
  · refine ⟨⟨⟨_, hgrouping.batch ⟨state.pending, state.pendingBytes⟩, (List.append_nil _).symm⟩,
      ?_, rfl, hmin.le.trans hmax, hunits.le, fun _ hentry => absurd hentry List.not_mem_nil⟩, rfl⟩
    intro batch hbatch
    rcases List.mem_append.mp hbatch with hbatch | hbatch
    · exact hstate.fits batch hbatch
    · obtain rfl := List.mem_singleton.mp hbatch
      exact {
        nonempty := fun hnil => hempty (List.isEmpty_iff.mpr hnil)
        textBytes := hstate.bytes
        floor := hfloor
        ceiling := hstate.ceiling
        units := hstate.units
        homogeneous := fun entry hentry other hother => Option.some_inj.mp
          ((hstate.key entry hentry).trans (hstate.key other hother).symm) }
  · exact ⟨⟨⟨_, hgrouping.skipAll state.pending, (List.append_nil _).symm⟩, hstate.fits, rfl,
      hmin.le.trans hmax, hunits.le, fun _ hentry => absurd hentry List.not_mem_nil⟩, rfl⟩

include hmin hmax hunits hstate in
theorem Invariant.flush_of (full : Prop) [Decidable full] :
    Invariant minBatchBytes maxBatchBytes maxBatchUnits consumed
      (if full then state.flush minBatchBytes else state) := by
  split_ifs
  · exact (hstate.flush hmin hmax hunits).1
  · exact hstate

variable {entry : CompressionBatchEntry Slot}

include hstate in
/-- An entry that fits to what waits. -/
theorem Invariant.push
    (hkey : state.pending ≠ [] → some (compatibilityKey entry) = state.pendingKey)
    (hroom : state.pending.length < maxBatchUnits)
    (hbytes : (state.pendingBytes : ℤ) + textBytes entry.routed.unit.text ≤ maxBatchBytes) :
    Invariant minBatchBytes maxBatchBytes maxBatchUnits (consumed ++ [entry])
      (state.push entry) where
  grouping := by
    obtain ⟨entries, hgrouping, rfl⟩ := hstate.grouping
    exact ⟨entries, hgrouping, List.append_assoc _ _ _⟩
  fits := hstate.fits
  bytes := by
    change state.pendingBytes + _ = totalBytes (state.pending ++ [entry])
    rw [totalBytes_append, hstate.bytes]
    rfl
  ceiling := by
    change ((state.pendingBytes + textBytes entry.routed.unit.text : ℕ) : ℤ) ≤ maxBatchBytes
    rw [Nat.cast_add]
    exact hbytes
  units := by
    change ((state.pending ++ [entry]).length : ℤ) ≤ maxBatchUnits
    rw [List.length_append, List.length_singleton, Nat.cast_add, Nat.cast_one]
    exact hroom
  key := by
    intro other hother
    rcases List.mem_append.mp hother with hother | hother
    · exact (hstate.key other hother).trans (hkey (List.ne_nil_of_mem hother)).symm
    · rw [List.mem_singleton.mp hother]
      rfl

include hunits hstate in
/-- An entry that waits alone. -/
theorem Invariant.push_alone (hnone : state.pending = [])
    (hbytes : textBytes entry.routed.unit.text ≤ maxBatchBytes) :
    Invariant minBatchBytes maxBatchBytes maxBatchUnits (consumed ++ [entry])
      (state.push entry) := by
  apply hstate.push
  · exact fun hne => absurd hnone hne
  · rw [hnone]
    exact hunits
  · rw [hstate.bytes, hnone]
    exact (zero_add _).trans_le hbytes

include hmin hmax hunits hstate in
theorem Invariant.step (entry : CompressionBatchEntry Slot) :
    Invariant minBatchBytes maxBatchBytes maxBatchUnits (consumed ++ [entry])
      (state.step minBatchBytes maxBatchBytes maxBatchUnits entry) := by
  obtain ⟨hflushed, hnone⟩ := hstate.flush hmin hmax hunits
  rw [BatchState.step]
  dsimp only
  by_cases hlarge : minBatchBytes ≤ textBytes entry.routed.unit.text ∨
      maxBatchBytes < textBytes entry.routed.unit.text
  · obtain ⟨entries, hgrouping, hconsumed⟩ := hflushed.grouping
    rw [hnone, List.append_nil] at hconsumed
    subst hconsumed
    rw [if_pos hlarge]
    refine ⟨⟨_, hgrouping.skip entry, ?_⟩, hflushed.fits, hflushed.bytes, hflushed.ceiling,
      hflushed.units, hflushed.key⟩
    exact (congrArg _ hnone).trans (List.append_nil _) |>.symm
  · have hbytes := not_lt.mp (not_or.mp hlarge).2
    -- The entry waits alone or with those it fits to.
    have hpushed : Invariant minBatchBytes maxBatchBytes maxBatchUnits (consumed ++ [entry])
        ((if !state.pending.isEmpty ∧ (some (compatibilityKey entry) ≠ state.pendingKey ∨
            maxBatchUnits ≤ state.pending.length ∨
            maxBatchBytes < (state.pendingBytes : ℤ) + textBytes entry.routed.unit.text) then
          state.flush minBatchBytes else state).push entry) := by
      split_ifs with hother
      · exact hflushed.push_alone hunits hnone hbytes
      · by_cases hnil : state.pending = []
        · exact hstate.push_alone hunits hnil hbytes
        · rw [not_and, not_or, not_or, not_not, not_le, not_lt] at hother
          obtain ⟨hkey, hroom, hroomBytes⟩ := hother (by simpa using hnil)
          exact hstate.push (fun _ => hkey) hroom hroomBytes
    rw [if_neg hlarge]
    exact hpushed.flush_of hmin hmax hunits _

variable (entries : List (CompressionBatchEntry Slot))

include hmin hmax hunits hstate in
theorem Invariant.run :
    Invariant minBatchBytes maxBatchBytes maxBatchUnits (consumed ++ entries)
      (entries.foldl (BatchState.step minBatchBytes maxBatchBytes maxBatchUnits) state) := by
  induction entries generalizing consumed state with
  | nil =>
      rw [List.append_nil]
      exact hstate
  | cons entry entries ih =>
      rw [List.append_cons]
      exact ih (hstate.step hmin hmax hunits entry)

include hmin hmax hunits in
/-- All entries are in batches within the limits or skipped, in order. -/
theorem buildCompressionBatches_grouping :
    ∃ batches skipped,
      buildCompressionBatches minBatchBytes maxBatchBytes maxBatchUnits entries =
        some (batches, skipped) ∧
      Grouping entries batches skipped ∧
      ∀ batch ∈ batches, Fits minBatchBytes maxBatchBytes maxBatchUnits batch := by
  have hrun := (invariant_init hmin hmax hunits).run hmin hmax hunits entries
  obtain ⟨hflushed, hnone⟩ := hrun.flush hmin hmax hunits
  obtain ⟨grouped, hgrouping, hconsumed⟩ := hflushed.grouping
  rw [List.nil_append, hnone, List.append_nil] at hconsumed
  subst hconsumed
  refine ⟨_, _, ?_, hgrouping, hflushed.fits⟩
  rw [buildCompressionBatches, if_neg hmin.not_ge, if_neg hmax.not_gt, if_neg hunits.not_ge]

end

end Batches

end Legroom.Transforms
