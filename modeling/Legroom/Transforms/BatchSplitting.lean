import Legroom.Lib.BracketTokens
import Legroom.Transforms.CompressionBatches
import Mathlib.Data.List.GetD

/-!
# Taking an answer apart

An answer is used if the tags of the entries enclose it, and each placeholder is once in it and
in the body of its entry.  A body gets the markers of its own entry only.
-/

namespace Legroom.Transforms

open Python Segment

namespace Batches

/-! ## Blocks -/

def Piece.marker? : Piece → Option Text
  | .marker line => some line
  | .char _ => none

/-- `_CCR_MARKER_RE.finditer` -/
def markersOf (shown : Text) : List Text := (pieces shown).filterMap Piece.marker?

theorem replaceMarkers_blocks (nonce : Text) (entryIndex markerIndex : ℕ) (found : List Piece) :
    (replaceMarkers nonce entryIndex markerIndex found).2 =
      ((found.filterMap Piece.marker?).zipIdx markerIndex).map fun marker =>
        ⟨ccrPlaceholder nonce entryIndex marker.2, entryIndex, marker.1⟩ := by
  induction found generalizing markerIndex with
  | nil => rfl
  | cons piece found ih =>
      cases piece with
      | marker line =>
          rw [List.filterMap_cons_some (show Piece.marker? (.marker line) = some line from rfl),
            List.zipIdx_cons, List.map_cons, ← ih (markerIndex + 1)]
          rfl
      | char char =>
          rw [List.filterMap_cons_none (show Piece.marker? (.char char) = none from rfl),
            ← ih markerIndex]
          rfl

variable {Slot : Type}

/-- The markers of an entry behind their placeholders. -/
def ownBlocks (nonce : Text) (entryIndex : ℕ) (shown : Text) : List (Text × ℕ × Text) :=
  (markersOf shown).zipIdx.map fun marker =>
    (ccrPlaceholder nonce entryIndex marker.2, entryIndex, marker.1)

theorem underscore_not_mem_decimalText (value : ℕ) : codePoint '_' ∉ decimalText value :=
  fun hmem => absurd (digit_of_mem_decimalText hmem).2 (by decide)

theorem ccrPlaceholder_eq (nonce : Text) (entryIndex markerIndex : ℕ) :
    ccrPlaceholder nonce entryIndex markerIndex =
      (text "[[LEGROOM_BATCH_CCR_" ++ (nonce ++ text "_")) ++ (decimalText entryIndex ++
        codePoint '_' :: (decimalText markerIndex ++ text "]]")) := by
  simp [ccrPlaceholder, text]

variable {nonce : Text} {entryIndex : ℕ}

theorem ccrPlaceholder_injective {markerIndex otherEntry other : ℕ}
    (heq : ccrPlaceholder nonce entryIndex markerIndex = ccrPlaceholder nonce otherEntry other) :
    entryIndex = otherEntry ∧ markerIndex = other := by
  rw [ccrPlaceholder_eq, ccrPlaceholder_eq] at heq
  obtain ⟨hentry, hbehind⟩ := eq_of_append_cons (underscore_not_mem_decimalText entryIndex)
    (underscore_not_mem_decimalText otherEntry) (List.append_cancel_left heq)
  exact ⟨decimalText_injective hentry, decimalText_injective (List.append_cancel_right hbehind)⟩

variable {shown : Text}

theorem of_mem_ownBlocks {block : Text × ℕ × Text}
    (hblock : block ∈ ownBlocks nonce entryIndex shown) :
    block.2.1 = entryIndex ∧ ∃ number, block.1 = ccrPlaceholder nonce entryIndex number := by
  obtain ⟨marker, -, rfl⟩ := List.mem_map.mp hblock
  exact ⟨rfl, marker.2, rfl⟩

theorem nodup_ownBlocks (nonce : Text) (batch : CompressionBatch Slot) :
    ((batch.entries.zipIdx.flatMap fun entry =>
      ownBlocks nonce entry.2 entry.1.routed.unit.text).map Prod.fst).Nodup := by
  rw [List.map_flatMap, List.nodup_flatMap]
  constructor
  · intro entry _
    rw [ownBlocks, List.map_map]
    have hnodup : ((markersOf entry.1.routed.unit.text).zipIdx.map Prod.snd).Nodup := by
      rw [List.zipIdx_map_snd]
      exact List.nodup_range'
    exact (List.Nodup.of_map Prod.snd hnodup).map_on fun marker hmarker other hother heq =>
      List.inj_on_of_nodup_map hnodup hmarker hother (ccrPlaceholder_injective heq).2
  · have hnodup : (batch.entries.zipIdx.map Prod.snd).Nodup := by
      rw [List.zipIdx_map_snd]
      exact List.nodup_range'
    refine (List.pairwise_map.mp hnodup).imp fun hne placeholder hleft hright => hne ?_
    obtain ⟨block, hblock, rfl⟩ := List.mem_map.mp hleft
    obtain ⟨other, hother, heq⟩ := List.mem_map.mp hright
    obtain ⟨-, number, hnumber⟩ := of_mem_ownBlocks hblock
    obtain ⟨-, otherNumber, hotherNumber⟩ := of_mem_ownBlocks hother
    rw [hnumber, hotherNumber] at heq
    exact (ccrPlaceholder_injective heq).1.symm

/-- The blocks of all entries, one after the other. -/
theorem entries_markerBlocks (nonce : Text) (batch : CompressionBatch Slot) :
    (markerBlocks nonce batch).entries = batch.entries.zipIdx.flatMap fun entry =>
      ownBlocks nonce entry.2 entry.1.routed.unit.text := by
  have hblocks : ((protectedEntries nonce batch).flatMap (·.2)).map
        (fun block => (block.placeholder, block.entryIndex, block.marker)) =
      batch.entries.zipIdx.flatMap fun entry =>
        ownBlocks nonce entry.2 entry.1.routed.unit.text := by
    rw [protectedEntries, List.mapIdx_eq_zipIdx_map, List.flatMap_map, List.map_flatMap]
    refine List.flatMap_congr fun entry _ => ?_
    rw [replaceMarkers_blocks, List.map_map]
    rfl
  have hdict := @Dict.foldl_set_eq_self _ _ _ ⟨_, nodup_ownBlocks nonce batch⟩
    (fun blocks block => blocks.set block.1 block.2) fun _ _ _ _ => rfl
  refine (congrArg Dict.entries ?_).trans (congrArg Dict.entries hdict)
  dsimp only
  rw [← hblocks, List.foldl_map]
  rfl

/-- The blocks of one of several lists. -/
theorem filter_flatMap_zipIdx {α β : Type*} {blocksOf : α × ℕ → List β} {key : β → ℕ}
    (hkey : ∀ item, ∀ block ∈ blocksOf item, key block = item.2) {items : List α}
    {offset index : ℕ} {item : α} (hitem : items[index]? = some item) :
    (((items.zipIdx offset).flatMap blocksOf).filter fun block => key block = offset + index) =
      blocksOf (item, offset + index) := by
  induction items generalizing offset index with
  | nil => cases hitem
  | cons first items ih =>
      rw [List.zipIdx_cons, List.flatMap_cons, List.filter_append]
      cases index with
      | zero =>
          obtain rfl : first = item := Option.some_inj.mp hitem
          have hown : ((blocksOf (first, offset)).filter fun block => key block = offset + 0) =
              blocksOf (first, offset) :=
            List.filter_eq_self.mpr fun block hblock => decide_eq_true (hkey _ block hblock)
          have hothers : (((items.zipIdx (offset + 1)).flatMap blocksOf).filter
              fun block => key block = offset + 0) = [] := by
            refine List.filter_eq_nil_iff.mpr fun block hblock => ?_
            obtain ⟨other, hother, hblock⟩ := List.mem_flatMap.mp hblock
            have hlater := List.le_snd_of_mem_zipIdx hother
            rw [decide_eq_true_eq, hkey other block hblock]
            omega
          rw [hown, hothers, List.append_nil]
          rfl
      | succ index =>
          have hothers : ((blocksOf (first, offset)).filter
              fun block => key block = offset + (index + 1)) = [] := by
            refine List.filter_eq_nil_iff.mpr fun block hblock => ?_
            rw [decide_eq_true_eq, hkey _ block hblock]
            omega
          have hrest := @ih (offset + 1) index hitem
          rw [Nat.add_right_comm] at hrest
          rw [hothers, List.nil_append]
          exact hrest

variable {batch : CompressionBatch Slot}

theorem filter_markerBlocks (nonce : Text) {index : ℕ} {entry : CompressionBatchEntry Slot}
    (hentry : batch.entries[index]? = some entry) :
    ((markerBlocks nonce batch).entries.filter fun block => block.2.1 = index) =
      ownBlocks nonce index entry.routed.unit.text := by
  have hown := @filter_flatMap_zipIdx (CompressionBatchEntry Slot) _
    (fun item => ownBlocks nonce item.2 item.1.routed.unit.text) (fun block => block.2.1)
    (fun _ _ hblock => (of_mem_ownBlocks hblock).1) batch.entries 0 index entry hentry
  rw [Nat.zero_add] at hown
  rw [entries_markerBlocks]
  exact hown

/-! ## Markers in the bodies -/

/-- The own placeholders of a body replaced, one after the other. -/
def putOwn (blocks : List (Text × ℕ × Text)) (body : Text) : Text :=
  blocks.foldl (fun shown block => replaceAll block.1 block.2.2 shown) body

variable (blocks : List (Text × ℕ × Text))
variable (values : List Text)

theorem length_putMarkers : (putMarkers blocks values).length = values.length := by
  rw [putMarkers]
  induction blocks generalizing values with
  | nil => rfl
  | cons block blocks ih =>
      rw [List.foldl_cons, ih, List.length_modify]

/-- Each body gets what belongs to its entry. -/
theorem getElem?_putMarkers (index : ℕ) :
    (putMarkers blocks values)[index]? =
      values[index]?.map (putOwn (blocks.filter fun block => block.2.1 = index)) := by
  rw [putMarkers]
  induction blocks generalizing values with
  | nil => exact Option.map_id'.symm
  | cons block blocks ih =>
      rw [List.foldl_cons, ih, List.getElem?_modify, List.filter_cons]
      by_cases hindex : block.2.1 = index
      · rw [if_pos (decide_eq_true hindex), Option.map_eq_map, Option.map_map]
        simp only [if_pos hindex]
        rfl
      · rw [if_neg (by simpa using hindex), Option.map_eq_map, Option.map_map]
        simp only [if_neg hindex]
        rfl

variable {bracket : CodePoint}

theorem bracket_not_mem_batchNonce
    (hbracket : ∀ digit < 16, bracket ≠ codePoint (Nat.digitChar digit))
    (batch : CompressionBatch Slot) : bracket ∉ batchNonce batch := by
  intro hmem
  obtain ⟨byte, -, hbyte⟩ := List.mem_flatMap.mp (List.mem_of_mem_take hmem)
  have hhigh : byte.toNat / 16 < 16 := Nat.div_lt_of_lt_mul byte.toNat_lt
  rcases List.mem_cons.mp hbyte with heq | hbyte
  · exact hbracket _ hhigh heq
  · exact hbracket _ (Nat.mod_lt _ (by decide)) (List.mem_singleton.mp hbyte)

/-- The name of a placeholder between its brackets. -/
def ccrName (nonce : Text) (entryIndex markerIndex : ℕ) : Text :=
  text "LEGROOM_BATCH_CCR_" ++ (nonce ++ (codePoint '_' ::
    (decimalText entryIndex ++ codePoint '_' :: decimalText markerIndex)))

theorem not_mem_ccrName (hnonce : bracket ∉ nonce) (hdigit : 57 < bracket.val)
    (hword : bracket ∉ text "LEGROOM_BATCH_CCR_") (hunderscore : bracket ≠ codePoint '_')
    (entryIndex markerIndex : ℕ) : bracket ∉ ccrName nonce entryIndex markerIndex := by
  have hdecimal : ∀ value, bracket ∉ decimalText value := fun value hmem =>
    absurd (digit_of_mem_decimalText hmem).2 (Nat.not_le.mpr hdigit)
  simp only [ccrName, List.mem_append, List.mem_cons, not_or]
  exact ⟨hword, hnonce, hunderscore, hdecimal entryIndex, hunderscore, hdecimal markerIndex⟩

/-- The placeholders of an entry are names in brackets. -/
def ccrBrackets {nonce : Text} (hleft : codePoint '[' ∉ nonce) (hright : codePoint ']' ∉ nonce)
    (entryIndex : ℕ) : Brackets CodePoint where
  left := codePoint '['
  right := codePoint ']'
  left_ne_right := by decide
  name := ccrName nonce entryIndex
  name_injective _ _ heq := decimalText_injective (List.cons.inj (List.append_cancel_left
    (List.cons.inj (List.append_cancel_left (List.append_cancel_left heq))).2)).2
  left_not_mem := not_mem_ccrName hleft (by decide) (by decide) (by decide) entryIndex
  right_not_mem := not_mem_ccrName hright (by decide) (by decide) (by decide) entryIndex

section

variable {nonce : Text} (hleft : codePoint '[' ∉ nonce) (hright : codePoint ']' ∉ nonce)

theorem ccrPlaceholder_eq_token (entryIndex : ℕ) :
    ccrPlaceholder nonce entryIndex = (ccrBrackets hleft hright entryIndex).tokens.token := by
  funext markerIndex
  simp [ccrPlaceholder, ccrBrackets, ccrName, Brackets.tokens, Brackets.token, Brackets.behind,
    text]

theorem putOwn_eq_restored (entryIndex : ℕ) (markers : List Text) (body : Text) :
    putOwn (markers.zipIdx.map fun marker =>
        (ccrPlaceholder nonce entryIndex marker.2, entryIndex, marker.1)) body =
      (ccrBrackets hleft hright entryIndex).tokens.restored (fun number => markers.getD number [])
        markers.length body := by
  induction markers using List.reverseRecOn with
  | nil => rfl
  | append_singleton markers marker ih =>
      have hlast : (markers ++ [marker]).getD markers.length [] = marker := by simp
      have hfront : ∀ number < markers.length,
          (markers ++ [marker]).getD number [] = markers.getD number [] :=
        fun number hnumber => List.getD_append _ _ _ _ hnumber
      rw [List.zipIdx_append, List.map_append, List.length_append, List.length_singleton,
        Tokens.restored, hlast, Tokens.restored_congr hfront, ← ih, ← ccrPlaceholder_eq_token,
        putOwn, List.foldl_append, Nat.zero_add]
      rfl

end

/-- A body in which the markers of an entry are put in for its placeholders. -/
structure Filled (nonce : Text) (entryIndex : ℕ) (shown body replacement : Text) : Prop where
  once : ∀ number < (markersOf shown).length,
    countAll (ccrPlaceholder nonce entryIndex number) body = 1
  inTurn : replacement = putOwn (ownBlocks nonce entryIndex shown) body
  inPlace : (∀ number < (markersOf shown).length, ∀ marker ∈ markersOf shown,
      ¬Overlaps (ccrPlaceholder nonce entryIndex number) marker) →
    ∃ segments, body = fill (ccrPlaceholder nonce entryIndex) segments ∧
      replacement = fill (fun number => (markersOf shown).getD number []) segments ∧
      ∀ number, Tokens.marks number segments = if number < (markersOf shown).length then 1 else 0

theorem filled_putOwn {body : Text} (hleft : codePoint '[' ∉ nonce) (hright : codePoint ']' ∉ nonce)
    (honce : ∀ block ∈ ownBlocks nonce entryIndex shown, countAll block.1 body = 1) :
    Filled nonce entryIndex shown body (putOwn (ownBlocks nonce entryIndex shown) body) := by
  have hnumbers : ∀ number < (markersOf shown).length,
      countAll (ccrPlaceholder nonce entryIndex number) body = 1 := by
    intro number hnumber
    refine honce (_, entryIndex, (markersOf shown)[number]) (List.mem_map.mpr
      ⟨((markersOf shown)[number], number), ?_, rfl⟩)
    exact List.mk_mem_zipIdx_iff_getElem?.mpr (List.getElem?_eq_getElem hnumber)
  refine ⟨hnumbers, rfl, fun happart => ?_⟩
  rw [ownBlocks, putOwn_eq_restored hleft hright]
  rw [ccrPlaceholder_eq_token hleft hright] at happart hnumbers ⊢
  refine Tokens.exists_places hnumbers fun number hnumber other hother => ?_
  have hlength := hother.trans hnumber
  rw [List.getD_eq_getElem _ _ hlength]
  exact happart number hnumber _ (List.getElem_mem hlength)

/-! ## Envelopes -/

theorem cutAt_eq_some {needle front behind : Text}
    (hcut : cutAt needle shown = some (front, behind)) (hneedle : needle ≠ []) :
    shown = front ++ needle ++ behind ∧ ¬needle <:+: front := by
  induction shown generalizing front with
  | nil =>
      rw [cutAt, if_neg (by simpa using hneedle)] at hcut
      cases hcut
  | cons first shown ih =>
      rw [cutAt] at hcut
      by_cases hbegins : needle <+: first :: shown
      · rw [if_pos hbegins, Option.some.injEq, Prod.mk.injEq] at hcut
        obtain ⟨rfl, rfl⟩ := hcut
        obtain ⟨rest, hrest⟩ := hbegins
        rw [← hrest, List.drop_left]
        exact ⟨rfl, fun hinfix => hneedle (List.infix_nil.mp hinfix)⟩
      · rw [if_neg hbegins] at hcut
        obtain ⟨⟨before, after⟩, hrest, heq⟩ := Option.map_eq_some_iff.mp hcut
        rw [Prod.mk.injEq] at heq
        obtain ⟨rfl, rfl⟩ := heq
        obtain ⟨rfl, hnot⟩ := ih hrest
        refine ⟨rfl, fun hinfix => ?_⟩
        rcases List.infix_cons_iff.mp hinfix with hwhole | hinfix
        · exact hbegins (hwhole.trans ⟨needle ++ after, by simp⟩)
        · exact hnot hinfix

variable (tables : CharTables)

/-- The bodies of the entries between their tags, in order, and nothing but spaces around them. -/
inductive Enveloped (nonce : Text) : List (CompressionBatchEntry Slot) → Text → List Text → Prop
  where
  | nil {shown : Text} (hspaces : ∀ char ∈ shown, tables.isSpace char = true) :
      Enveloped nonce [] shown []
  | cons {entry : CompressionBatchEntry Slot} {entries : List (CompressionBatchEntry Slot)}
      {spaces body behind : Text} {bodies : List Text}
      (hspaces : ∀ char ∈ spaces, tables.isSpace char = true)
      (hbody : ¬closeTag nonce entry <:+: body) (hbehind : Enveloped nonce entries behind bodies) :
      Enveloped nonce (entry :: entries)
        (spaces ++ openTag nonce entry ++ body ++ closeTag nonce entry ++ behind) (body :: bodies)

theorem isSpace_of_strip (hempty : (strip tables shown).isEmpty = true) :
    ∀ char ∈ shown, tables.isSpace char = true := by
  rw [strip, List.isEmpty_reverse, List.isEmpty_iff, List.dropWhile_eq_nil_iff] at hempty
  have hnone : shown.dropWhile tables.isSpace = [] := by
    rw [← List.dropWhile_idempotent, List.dropWhile_eq_nil_iff]
    exact fun char hchar => hempty char (List.mem_reverse.mpr hchar)
  exact List.dropWhile_eq_nil_iff.mp hnone

theorem closeTag_ne_nil (nonce : Text) (entry : CompressionBatchEntry Slot) :
    closeTag nonce entry ≠ [] := by
  simp [closeTag, text]

variable {entries : List (CompressionBatchEntry Slot)} {values : List Text}

theorem enveloped_of_parseEntries {rest : Text}
    (hparse : parseEntries tables nonce entries shown = some (values, rest))
    (hempty : (strip tables rest).isEmpty = true) :
    Enveloped tables nonce entries shown values := by
  induction entries generalizing shown values with
  | nil =>
      rw [parseEntries, Option.some.injEq, Prod.mk.injEq] at hparse
      obtain ⟨rfl, rfl⟩ := hparse
      exact .nil (isSpace_of_strip tables hempty)
  | cons entry entries ih =>
      rw [parseEntries] at hparse
      dsimp only at hparse
      by_cases hopen : openTag nonce entry <+: shown.dropWhile tables.isSpace
      · rw [if_pos hopen] at hparse
        obtain ⟨⟨value, behind⟩, hcut, hparse⟩ := Option.bind_eq_some_iff.mp hparse
        obtain ⟨⟨others, after⟩, hrest, hparse⟩ := Option.bind_eq_some_iff.mp hparse
        rw [Option.some.injEq, Prod.mk.injEq] at hparse
        obtain ⟨rfl, rfl⟩ := hparse
        obtain ⟨hvalue, hbody⟩ := cutAt_eq_some hcut (closeTag_ne_nil nonce entry)
        obtain ⟨tagged, htagged⟩ := hopen
        rw [← htagged, List.drop_left] at hvalue
        rw [← List.takeWhile_append_dropWhile (p := tables.isSpace) (l := shown), ← htagged, hvalue]
        simp only [← List.append_assoc]
        exact .cons (fun char hchar => List.mem_takeWhile_imp hchar) hbody (ih hrest)
      · rw [if_neg hopen] at hparse
        cases hparse

theorem Enveloped.length {bodies : List Text}
    (henveloped : Enveloped tables nonce entries shown bodies) :
    bodies.length = entries.length := by
  induction henveloped with
  | nil => rfl
  | cons _ _ _ ih => rw [List.length_cons, List.length_cons, ih]

theorem enveloped_of_parse (hparse : parseBatchEnvelope tables shown batch nonce = some values) :
    Enveloped tables nonce batch.entries shown values := by
  obtain ⟨⟨found, rest⟩, hfound, hparse⟩ := Option.bind_eq_some_iff.mp hparse
  dsimp only at hparse
  by_cases hempty : (strip tables rest).isEmpty = true
  · rw [if_pos hempty, Option.some.injEq] at hparse
    rw [← hparse]
    exact enveloped_of_parseEntries tables hfound hempty
  · rw [if_neg hempty] at hparse
    cases hparse

/-! ## Results -/

variable (countText : Text → ℤ)

/-- The batch stays as it was. -/
def PassedThrough (batch : CompressionBatch Slot)
    (results : List (Slot × UnitCompressionResult)) : Prop :=
  ∃ reason routerResult, results = passthroughBatchResults countText batch reason routerResult

theorem entryResult_original (result : RouterCompressionResult) (unit : CompressionUnit)
    (replacement : Text) :
    (entryResult tables countText result unit replacement).original = unit.text ∧
      (entryResult tables countText result unit replacement).compressed = replacement := by
  rw [entryResult]
  split_ifs
  · exact ⟨rfl, rfl⟩
  · exact ⟨rfl, rfl⟩
  · exact ⟨rfl, rfl⟩

variable (router : RouterCall → Option RouterCompressionResult)

/-- The router sees the batch with its tags and markers protected. -/
def protectedBatch (batch : CompressionBatch Slot) : Option (Text × List (Text × Text)) :=
  protectTags (batchEnvelope batch (batchNonce batch)
    ((protectedEntries (batchNonce batch) batch).map (·.1)))

/-- The texts of the entries are from between their tags in the answer of the router. -/
def TakenApart (batch : CompressionBatch Slot) (targetRatio : Option ℚ)
    (results : List (Slot × UnitCompressionResult)) : Prop :=
  ∃ shielded tagBlocks result restored bodies,
    protectedBatch batch = some (shielded, tagBlocks) ∧
    callRouter router batch targetRatio shielded = some result ∧
    restoreTags result.compressed tagBlocks = some restored ∧
    Enveloped tables (batchNonce batch) batch.entries restored bodies ∧
    ∀ index entry, batch.entries[index]? = some entry → ∃ body unitResult,
      bodies[index]? = some body ∧ results[index]? = some (entry.routed.slot, unitResult) ∧
      unitResult.original = entry.routed.unit.text ∧
      Filled (batchNonce batch) index entry.routed.unit.text body unitResult.compressed

variable {tables countText router}
variable {targetRatio : Option ℚ} {results : List (Slot × UnitCompressionResult)}

/-- A batch passes through, or the bodies of the answer are the texts of its entries. -/
theorem compress_cases
    (hcompress : compressBatchWithRouter tables countText router batch targetRatio = some results) :
    PassedThrough countText batch results ∨ ∃ shielded tagBlocks result restored values,
      protectedBatch batch = some (shielded, tagBlocks) ∧
      callRouter router batch targetRatio shielded = some result ∧
      restoreTags result.compressed tagBlocks = some restored ∧
      parseBatchEnvelope tables restored batch (batchNonce batch) = some values ∧
      (∀ block ∈ (markerBlocks (batchNonce batch) batch).entries,
        countAll block.1 (values.getD block.2.1 []) = 1) ∧
      results = List.zipWith (fun entry replacement => (entry.routed.slot,
        entryResult tables countText result entry.routed.unit replacement)) batch.entries
          (putMarkers (markerBlocks (batchNonce batch) batch).entries values) := by
  obtain ⟨⟨shielded, tagBlocks⟩, hshielded, hcompress⟩ := Option.bind_eq_some_iff.mp hcompress
  dsimp only at hcompress
  cases hrouter : callRouter router batch targetRatio shielded with
  | none =>
      rw [hrouter] at hcompress
      exact .inl ⟨_, _, (Option.some_inj.mp hcompress).symm⟩
  | some result =>
      rw [hrouter] at hcompress
      dsimp only at hcompress
      by_cases hsame : result.compressed.isEmpty ∨ result.compressed = shielded
      · rw [if_pos hsame] at hcompress
        exact .inl ⟨_, _, (Option.some_inj.mp hcompress).symm⟩
      · rw [if_neg hsame] at hcompress
        split_ifs at hcompress with hcounts
        · exact .inl ⟨_, _, (Option.some_inj.mp hcompress).symm⟩
        · obtain ⟨restored, hrestored, hcompress⟩ := Option.bind_eq_some_iff.mp hcompress
          cases hparse : parseBatchEnvelope tables restored batch (batchNonce batch) with
          | none =>
              rw [hparse] at hcompress
              exact .inl ⟨_, _, (Option.some_inj.mp hcompress).symm⟩
          | some values =>
              rw [hparse] at hcompress
              dsimp only at hcompress
              split_ifs at hcompress with hbodies
              · exact .inl ⟨_, _, (Option.some_inj.mp hcompress).symm⟩
              · refine .inr ⟨shielded, tagBlocks, result, restored, values, hshielded, hrouter,
                  hrestored, hparse, fun block hblock => ?_, (Option.some_inj.mp hcompress).symm⟩
                by_contra hcount
                exact hbodies (List.any_eq_true.mpr ⟨block, hblock, decide_eq_true hcount⟩)

/-- The results are in the order of the slots. -/
theorem compress_slots
    (hcompress : compressBatchWithRouter tables countText router batch targetRatio = some results) :
    results.map Prod.fst = batch.entries.map (·.routed.slot) := by
  rcases compress_cases hcompress with ⟨reason, routerResult, rfl⟩ |
    ⟨shielded, tagBlocks, result, restored, values, -, -, -, hparse, -, rfl⟩
  · rw [passthroughBatchResults, List.map_map]
    rfl
  · have hlength : (putMarkers (markerBlocks (batchNonce batch) batch).entries values).length =
        batch.entries.length :=
      (length_putMarkers _ _).trans (enveloped_of_parse tables hparse).length
    refine List.ext_getElem? fun index => ?_
    rw [List.getElem?_map, List.getElem?_map, List.getElem?_zipWith]
    cases hentry : batch.entries[index]? with
    | none => rfl
    | some entry =>
        have hbound := (List.getElem?_eq_some_iff.mp hentry).1
        rw [List.getElem?_eq_getElem (hlength.symm ▸ hbound)]
        rfl

theorem compress_texts
    (hcompress : compressBatchWithRouter tables countText router batch targetRatio = some results) :
    PassedThrough countText batch results ∨
      TakenApart tables router batch targetRatio results := by
  rcases compress_cases hcompress with hpassed | ⟨shielded, tagBlocks, result, restored, values,
    hshielded, hrouter, hrestored, hparse, hcounts, rfl⟩
  · exact .inl hpassed
  · have henveloped := enveloped_of_parse tables hparse
    refine .inr ⟨shielded, tagBlocks, result, restored, values, hshielded, hrouter, hrestored,
      henveloped, fun index entry hentry => ?_⟩
    have hbound : index < values.length :=
      henveloped.length ▸ (List.getElem?_eq_some_iff.mp hentry).1
    have hbody : values[index]? = some values[index] := List.getElem?_eq_getElem hbound
    have hput := getElem?_putMarkers (markerBlocks (batchNonce batch) batch).entries
      values index
    rw [hbody, filter_markerBlocks _ hentry] at hput
    obtain ⟨horiginal, hcompressed⟩ := entryResult_original tables countText result
      entry.routed.unit (putOwn (ownBlocks (batchNonce batch) index entry.routed.unit.text)
        values[index])
    refine ⟨values[index], _, hbody, ?_, horiginal, ?_⟩
    · rw [List.getElem?_zipWith, hentry, hput]
      rfl
    · rw [hcompressed]
      refine filled_putOwn (bracket_not_mem_batchNonce (by decide) batch)
        (bracket_not_mem_batchNonce (by decide) batch) fun block hblock => ?_
      rw [← filter_markerBlocks _ hentry, List.mem_filter, decide_eq_true_eq] at hblock
      have hcount := hcounts block hblock.1
      rwa [hblock.2, List.getD_eq_getElem _ _ hbound] at hcount

/-- Only the tag protector raises. -/
theorem compress_raises
    (hraises : compressBatchWithRouter tables countText router batch targetRatio = none) :
    protectedBatch batch = none ∨ ∃ shielded tagBlocks result,
      protectedBatch batch = some (shielded, tagBlocks) ∧
      callRouter router batch targetRatio shielded = some result ∧
      restoreTags result.compressed tagBlocks = none := by
  cases hshielded : protectedBatch batch with
  | none => exact .inl rfl
  | some shielding =>
      obtain ⟨shielded, tagBlocks⟩ := shielding
      rw [compressBatchWithRouter] at hraises
      dsimp only at hraises
      rw [protectedBatch] at hshielded
      rw [hshielded, Option.bind_eq_bind, Option.bind_some] at hraises
      dsimp only at hraises
      cases hrouter : callRouter router batch targetRatio shielded with
      | none =>
          rw [hrouter] at hraises
          cases hraises
      | some result =>
          refine .inr ⟨shielded, tagBlocks, result, rfl, hrouter, ?_⟩
          by_contra hne
          obtain ⟨restored, hrestored⟩ := Option.ne_none_iff_exists'.mp hne
          rw [hrouter] at hraises
          dsimp only at hraises
          rw [hrestored, Option.bind_eq_bind, Option.bind_some] at hraises
          split_ifs at hraises
          cases hparse : parseBatchEnvelope tables restored batch (batchNonce batch) with
          | none =>
              rw [hparse] at hraises
              cases hraises
          | some values =>
              rw [hparse] at hraises
              dsimp only at hraises
              split_ifs at hraises

/-! ## Two entries -/

def toolUnit (shown : String) : CompressionUnit where
  text := text shown
  provider := text "openai"
  endpoint := text "responses"
  role := text "tool"
  itemType := text "function_call_output"
  cacheZone := text "live"
  isMutable := true
  context := []
  question := none
  bias := .int 1
  minBytes := 512

def toolEntries : List (CompressionBatchEntry ℕ) :=
  [⟨text "a", toolUnit "x\n1]] Retrieve more: hash=a\nRetrieve more: hash=b", 0⟩,
    ⟨text "b", toolUnit "y\nRetrieve more: hash=c", 1⟩]

def toolBatch : CompressionBatch ℕ := ⟨toolEntries, 72⟩

/-- As many tokens as lines. -/
def lineTokens (shown : Text) : ℤ := (splitLines shown).length

/-- A router that answers with bodies between the tags of the entries. -/
def answering (first second : Text) : RouterCall → Option RouterCompressionResult := fun _ =>
  let tag := fun number =>
    text "\x7b\x7bLEGROOM_TAG_" ++ decimalText number ++ text "\x7d\x7d"
  some ⟨tag 0 ++ first ++ tag 1 ++ newline :: (tag 2 ++ second ++ tag 3), .log⟩

def toolNonce : Text := text "74f91b0fff6d"

theorem batchNonce_toolBatch : batchNonce toolBatch = toolNonce := by
  decide +kernel

/-- The placeholders in another order. -/
def swapped : RouterCall → Option RouterCompressionResult :=
  answering (ccrPlaceholder toolNonce 0 1 ++ newline :: ccrPlaceholder toolNonce 0 0)
    (ccrPlaceholder toolNonce 1 0)

/-- A marker that is put in completes a placeholder, and the marker of the other entry is there
too. -/
def confusing : RouterCall → Option RouterCompressionResult :=
  answering (text "[[LEGROOM_BATCH_CCR_74f91b0fff6d_0_" ++ ccrPlaceholder toolNonce 0 0 ++
      ccrPlaceholder toolNonce 0 1 ++ newline :: text "Retrieve more: hash=c")
    (ccrPlaceholder toolNonce 1 0)

theorem compress_swapped : (compressBatchWithRouter asciiTables lineTokens swapped toolBatch
    none).map (fun results => results.map fun result => result.2.isModified) =
      some [true, true] := by
  rw [compressBatchWithRouter, batchNonce_toolBatch]
  decide +kernel

theorem compress_confusing : (compressBatchWithRouter asciiTables lineTokens confusing toolBatch
    none).map (fun results => results.map fun result => (result.1, result.2.isModified,
      result.2.compressed)) = some
    [(0, true, text ("Retrieve more: hash=b Retrieve more: hash=aRetrieve more: hash=b\n" ++
        "Retrieve more: hash=c")), (1, true, text "Retrieve more: hash=c")] := by
  rw [compressBatchWithRouter, batchNonce_toolBatch]
  decide +kernel

/-- Every entry is in one batch or skipped, in order, and a batch is within the limits.  Its
results are in the order of the slots.  It passes through, or the texts are from between the
tags of the entries in the answer, each with the markers of its own entry. -/
theorem batches_kept {minBatchBytes maxBatchBytes maxBatchUnits : ℤ} (hmin : 0 < minBatchBytes)
    (hmax : minBatchBytes ≤ maxBatchBytes) (hunits : 0 < maxBatchUnits)
    (entries : List (CompressionBatchEntry Slot)) (tables : CharTables) (countText : Text → ℤ)
    (router : RouterCall → Option RouterCompressionResult) (batch : CompressionBatch Slot)
    (targetRatio : Option ℚ) :
    (∃ batches skipped,
      buildCompressionBatches minBatchBytes maxBatchBytes maxBatchUnits entries =
        some (batches, skipped) ∧
      entries.Perm (batches.flatMap (·.entries) ++ skipped) ∧
      (batches.flatMap (·.entries)).Sublist entries ∧ skipped.Sublist entries ∧
      ∀ batch ∈ batches, Fits minBatchBytes maxBatchBytes maxBatchUnits batch) ∧
    (∀ results,
      compressBatchWithRouter tables countText router batch targetRatio = some results →
        results.map Prod.fst = batch.entries.map (·.routed.slot) ∧
        (PassedThrough countText batch results ∨
          TakenApart tables router batch targetRatio results)) ∧
    (compressBatchWithRouter tables countText router batch targetRatio = none →
      protectedBatch batch = none ∨ ∃ shielded tagBlocks result,
        protectedBatch batch = some (shielded, tagBlocks) ∧
        callRouter router batch targetRatio shielded = some result ∧
        restoreTags result.compressed tagBlocks = none) := by
  refine ⟨?_, fun results hresults => ⟨compress_slots hresults, compress_texts hresults⟩,
    compress_raises⟩
  obtain ⟨batches, skipped, hbuild, hgrouping, hfits⟩ :=
    buildCompressionBatches_grouping hmin hmax hunits entries
  exact ⟨batches, skipped, hbuild, hgrouping.perm, hgrouping.batches_sublist,
    hgrouping.skipped_sublist, hfits⟩

/-- Two entries in a batch, with an answer that is taken apart. -/
theorem batches_kept_two :
    (∃ batches skipped, buildCompressionBatches 60 100 16 toolEntries = some (batches, skipped) ∧
      batches.map (·.textBytes) = [72] ∧ skipped.length = 0 ∧
      ∀ batch ∈ batches, Fits 60 100 16 batch) ∧
    ∃ results,
      compressBatchWithRouter asciiTables lineTokens swapped toolBatch none = some results ∧
      results.map Prod.fst = [0, 1] ∧
      TakenApart asciiTables swapped toolBatch none results := by
  obtain ⟨⟨batches, skipped, hbuild, -, -, -, hfits⟩, hresults, -⟩ := batches_kept
    (show (0 : ℤ) < 60 by decide) (show (60 : ℤ) ≤ 100 by decide) (show (0 : ℤ) < 16 by decide)
    toolEntries asciiTables lineTokens swapped toolBatch none
  have hone : (buildCompressionBatches 60 100 16 toolEntries).map (fun built =>
      (built.1.map (·.textBytes), built.2.length)) = some ([72], 0) := by decide +kernel
  rw [hbuild, Option.map_some, Option.some.injEq, Prod.mk.injEq] at hone
  refine ⟨⟨batches, skipped, hbuild, hone.1, hone.2, hfits⟩, ?_⟩
  obtain ⟨results, hcompress, hmodified⟩ := Option.map_eq_some_iff.mp compress_swapped
  obtain ⟨hslots, hpassed | htaken⟩ := hresults results hcompress
  · obtain ⟨reason, routerResult, rfl⟩ := hpassed
    cases hmodified
  · exact ⟨results, hcompress, hslots, htaken⟩

/-- The first text has lost its first marker and has the marker of the other entry. -/
theorem marker_lost_and_received :
    ∃ shown other, (compressBatchWithRouter asciiTables lineTokens confusing toolBatch none).map
        (fun results => results.map fun result => (result.1, result.2.isModified,
          result.2.compressed)) = some [(0, true, shown), (1, true, other)] ∧
      (text "1]] Retrieve more: hash=a" ∈ markersOf (toolEntries.map (·.routed.unit.text))[0] ∧
        ¬text "1]] Retrieve more: hash=a" <:+: shown) ∧
      text "Retrieve more: hash=c" ∉ markersOf (toolEntries.map (·.routed.unit.text))[0] ∧
      text "Retrieve more: hash=c" ∈ markersOf (toolEntries.map (·.routed.unit.text))[1] ∧
      text "Retrieve more: hash=c" <:+: shown := by
  refine ⟨_, _, compress_confusing, ?_⟩
  decide +kernel

end Batches

end Legroom.Transforms
