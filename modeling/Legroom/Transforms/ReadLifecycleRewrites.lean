import Legroom.Transforms.ReadLifecycle

/-!
# What is replaced

The pass over the messages replaces contents of results by markers.  Each replacement is one
transform, one hash and one call of the store.
-/

namespace Legroom.Transforms

open Python

namespace ReadLifecycle

def isToolResult (block : Value) : Bool :=
  (block.get (text "type")).any fun type => type.isText (text "tool_result")

/-- A result that is replaced. -/
structure Replacement where
  classification : ReadClassification
  content : Text
  ccrHash : Text
  marker : Text
  transform : Text
  /-- The result is a message of the role `tool`, and no block. -/
  isTool : Bool

/-- A result has an id and a text.  A missing text is empty. -/
structure Replacement.Of (replacement : Replacement) (idKey : Text) (result : Value) : Prop where
  id : (result.getOr idKey (.str [])).bind keyOf = some replacement.classification.toolCallId
  content : result.getOr (text "content") (.str []) = some (.str replacement.content)

/-- A block with its text replaced by the marker. -/
inductive BlockRewrite : Value → List Replacement → Value → Prop where
  | same (block : Value) : BlockRewrite block [] block
  | replaced {block : Value} {replacement : Replacement} (hresult : isToolResult block = true)
      (hof : replacement.Of (text "tool_use_id") block) (htool : replacement.isTool = false) :
      BlockRewrite block [replacement] (block.put (text "content") (.str replacement.marker))

inductive BlocksRewrite : List Value → List Replacement → List Value → Prop where
  | nil : BlocksRewrite [] [] []
  | cons {block processed : Value} {blocks rest : List Value}
      {first replacements : List Replacement} (hblock : BlockRewrite block first processed)
      (hblocks : BlocksRewrite blocks replacements rest) :
      BlocksRewrite (block :: blocks) (first ++ replacements) (processed :: rest)

/-- A message with its content, or contents of its blocks, replaced by markers. -/
inductive MessageRewrite : Value → List Replacement → Value → Prop where
  | same (message : Value) : MessageRewrite message [] message
  | tool {message : Value} {replacement : Replacement}
      (hrole : message.get (text "role") = some (.str (text "tool")))
      (hof : replacement.Of (text "tool_call_id") message) (htool : replacement.isTool = true) :
      MessageRewrite message [replacement]
        (message.put (text "content") (.str replacement.marker))
  | blocks {message : Value} {blocks processed : List Value} {replacements : List Replacement}
      (hcontent : message.get (text "content") = some (.list blocks))
      (hblocks : BlocksRewrite blocks replacements processed) :
      MessageRewrite message replacements (message.put (text "content") (.list processed))

/-- The messages behind the pass, each with what is replaced in it. -/
abbrev MessagesRewrite (messages : List Value) (steps : List (List Replacement × Value)) : Prop :=
  List.Forall₂ (fun message step => MessageRewrite message step.1 step.2) messages steps

section

variable {Store : Type} (config : ReadLifecycleConfig) (format : FloatFormat)
  (digest : Bytes → Text) (storeCall : Option (Store → StoreCall → Store × Option Text))
  (replacements : Dict Key ReadClassification)

/-- The marker names the hash, and the text is long enough. -/
structure Replacement.Valid (replacement : Replacement) : Prop where
  classified : replacements.get? replacement.classification.toolCallId =
    some replacement.classification
  encoded : encodeText replacement.content = some (encode replacement.content)
  size : config.minSizeBytes ≤ (encode replacement.content).length
  marker : ∃ display,
    formatValue format (replacement.classification.filePath.orElse (.str (text "unknown"))) =
      some display ∧
    replacement.marker = markerText display replacement.ccrHash replacement.classification.state
  transform : transformText format replacement.classification = some replacement.transform

/-- The store is called once for each replacement, and the marker has the hash it answers. -/
inductive StoreRun : Store → List Replacement → Store → Prop where
  | nil (store : Store) : StoreRun store [] store
  | cons {store next last : Store} {replacement : Replacement} {rest : List Replacement}
      (hrecord : recordContent digest storeCall store replacement.content
        (encode replacement.content) replacement.classification = (next, replacement.ccrHash))
      (hrest : StoreRun next rest last) : StoreRun store (replacement :: rest) last

/-- The size of the texts of the messages of the role `tool`. -/
def toolBytes (textOf : Replacement → Text) (replaced : List Replacement) : ℕ :=
  ((replaced.filter (·.isTool)).map fun replacement => (encode (textOf replacement)).length).sum

/-- What is recorded of a list of replacements. -/
structure Recorded (before : LifecycleState Store) (replaced : List Replacement)
    (behind : LifecycleState Store) : Prop where
  valid : ∀ replacement ∈ replaced, replacement.Valid config format replacements
  store : StoreRun digest storeCall before.store replaced behind.store
  transforms : behind.transforms = before.transforms ++ replaced.map (·.transform)
  ccrHashes : behind.ccrHashes =
    before.ccrHashes ++ (replaced.map (·.ccrHash)).filter fun ccrHash => !ccrHash.isEmpty
  bytesBefore : behind.bytesBefore = before.bytesBefore + toolBytes (·.content) replaced
  bytesAfter : behind.bytesAfter = before.bytesAfter + toolBytes (·.marker) replaced

variable {config format digest storeCall replacements}

theorem StoreRun.append {first middle last : Store} {left right : List Replacement}
    (hleft : StoreRun digest storeCall first left middle)
    (hright : StoreRun digest storeCall middle right last) :
    StoreRun digest storeCall first (left ++ right) last := by
  induction hleft with
  | nil => exact hright
  | cons hrecord _ ih => exact .cons hrecord (ih hright)

theorem toolBytes_append (textOf : Replacement → Text) (left right : List Replacement) :
    toolBytes textOf (left ++ right) = toolBytes textOf left + toolBytes textOf right := by
  rw [toolBytes, List.filter_append, List.map_append, List.sum_append]
  rfl

theorem Recorded.refl (state : LifecycleState Store) :
    Recorded config format digest storeCall replacements state [] state where
  valid := fun _ hmem => absurd hmem List.not_mem_nil
  store := .nil _
  transforms := (List.append_nil _).symm
  ccrHashes := (List.append_nil _).symm
  bytesBefore := rfl
  bytesAfter := rfl

theorem Recorded.append {first middle last : LifecycleState Store} {left right : List Replacement}
    (hleft : Recorded config format digest storeCall replacements first left middle)
    (hright : Recorded config format digest storeCall replacements middle right last) :
    Recorded config format digest storeCall replacements first (left ++ right) last where
  valid := fun replacement hmem =>
    (List.mem_append.mp hmem).elim (hleft.valid replacement) (hright.valid replacement)
  store := hleft.store.append hright.store
  transforms := by
    rw [hright.transforms, hleft.transforms, List.map_append, List.append_assoc]
  ccrHashes := by
    rw [hright.ccrHashes, hleft.ccrHashes, List.map_append, List.filter_append, List.append_assoc]
  bytesBefore := by rw [hright.bytesBefore, hleft.bytesBefore, toolBytes_append, Nat.add_assoc]
  bytesAfter := by rw [hright.bytesAfter, hleft.bytesAfter, toolBytes_append, Nat.add_assoc]

/-! ## The steps of the pass -/

variable {content : Text}

theorem eq_encode_of_encodeText {bytes : Bytes} (hencode : encodeText content = some bytes) :
    bytes = encode content := by
  rw [encodeText] at hencode
  split_ifs at hencode
  exact (Option.some_inj.mp hencode).symm

variable {classification : ReadClassification}

/-- What is known of a content that is replaced. -/
theorem replaceContent_spec {store next : Store} {marker ccrHash : Text}
    (hreplace : replaceContent config format digest storeCall store content classification =
      some (next, some (marker, ccrHash))) :
    encodeText content = some (encode content) ∧
      config.minSizeBytes ≤ (encode content).length ∧
      recordContent digest storeCall store content (encode content) classification =
        (next, ccrHash) ∧
      ∃ display,
        formatValue format (classification.filePath.orElse (.str (text "unknown"))) =
          some display ∧
        marker = markerText display ccrHash classification.state := by
  obtain ⟨bytes, hbytes, hreplace⟩ := Option.bind_eq_some_iff.mp hreplace
  obtain rfl := eq_encode_of_encodeText hbytes
  by_cases hsmall : ((encode content).length : ℤ) < config.minSizeBytes
  · rw [if_pos hsmall] at hreplace
    cases hreplace
  · rw [if_neg hsmall] at hreplace
    obtain ⟨display, hdisplay, hreplace⟩ := Option.bind_eq_some_iff.mp hreplace
    rw [Option.some_inj, Prod.mk.injEq, Option.some_inj, Prod.mk.injEq] at hreplace
    obtain ⟨rfl, rfl, rfl⟩ := hreplace
    exact ⟨hbytes, not_lt.mp hsmall, rfl, display, hdisplay, rfl⟩

/-- What is recorded of one replacement. -/
theorem recorded_of_replaceContent {state : LifecycleState Store} {next : Store}
    {marker ccrHash transform : Text}
    (hget : replacements.get? classification.toolCallId = some classification)
    (hreplace : replaceContent config format digest storeCall state.store content classification =
      some (next, some (marker, ccrHash)))
    (htransform : transformText format classification = some transform) (isTool : Bool) :
    let replacement : Replacement := ⟨classification, content, ccrHash, marker, transform, isTool⟩
    Recorded config format digest storeCall replacements state [replacement]
      { state.push next transform ccrHash with
        bytesBefore := state.bytesBefore + toolBytes (·.content) [replacement]
        bytesAfter := state.bytesAfter + toolBytes (·.marker) [replacement] } := by
  obtain ⟨hencoded, hsize, hrecord, hmarker⟩ := replaceContent_spec hreplace
  exact {
    valid := fun replacement hmem => by
      obtain rfl := List.mem_singleton.mp hmem
      exact ⟨hget, hencoded, hsize, hmarker, htransform⟩
    store := .cons hrecord (.nil _)
    transforms := rfl
    ccrHashes := by cases ccrHash <;> rfl
    bytesBefore := rfl
    bytesAfter := rfl }

theorem replacementOf_spec {id : Value}
    (hreplacement : replacementOf replacements id = some (some classification)) :
    ∃ key, keyOf id = some key ∧ replacements.get? key = some classification := by
  obtain ⟨key, hkey, hget⟩ := Option.bind_eq_some_iff.mp hreplacement
  exact ⟨key, hkey, Option.some_inj.mp hget⟩

section

variable (hkeys : ∀ key classification, replacements.get? key = some classification →
  classification.toolCallId = key)
include hkeys

variable {state behind : LifecycleState Store}
variable {replaced : Option Value}

/-- A block stays, or is a result whose text is replaced. -/
theorem processBlock_spec {block : Value}
    (hprocess : processBlock config format digest storeCall replacements state block =
      some (behind, replaced)) :
    ∃ found, BlockRewrite block found (replaced.getD block) ∧
      Recorded config format digest storeCall replacements state found behind := by
  rw [processBlock] at hprocess
  by_cases hresult : isToolResult block = true
  · rw [if_neg (by rw [← isToolResult, hresult]; decide)] at hprocess
    simp only [bind, Option.bind_eq_some_iff] at hprocess
    obtain ⟨id, hid, content, hcontent, found, hfound, hprocess⟩ := hprocess
    split at hprocess
    · next classification content =>
        obtain ⟨key, hkey, hget⟩ := replacementOf_spec hfound
        obtain rfl := hkeys key classification hget
        simp only [Option.bind_eq_some_iff] at hprocess
        obtain ⟨⟨next, written⟩, hwritten, hprocess⟩ := hprocess
        cases written with
        | none =>
            cases hprocess
            exact ⟨[], .same block, .refl _⟩
        | some written =>
            obtain ⟨transform, htransform, hprocess⟩ := Option.bind_eq_some_iff.mp hprocess
            cases hprocess
            refine ⟨[⟨classification, content, written.2, written.1, transform, false⟩],
              .replaced hresult ⟨?_, hcontent⟩ rfl,
              recorded_of_replaceContent hget hwritten htransform false⟩
            rw [hid]
            exact hkey
    · cases hprocess
      exact ⟨[], .same block, .refl _⟩
  · rw [if_pos (by rw [← isToolResult, Bool.not_eq_true] at *; rw [hresult]; rfl)] at hprocess
    cases hprocess
    exact ⟨[], .same block, .refl _⟩

variable {processed : List Value}
variable {blocks : List Value} {anyReplaced : Bool}

theorem processBlocks_spec
    (hprocess : processBlocks config format digest storeCall replacements state blocks =
      some (behind, processed, anyReplaced)) :
    ∃ found, BlocksRewrite blocks found processed ∧
      Recorded config format digest storeCall replacements state found behind ∧
      (anyReplaced = false → processed = blocks) := by
  induction blocks generalizing state processed anyReplaced with
  | nil =>
      cases hprocess
      exact ⟨[], .nil, .refl _, fun _ => rfl⟩
  | cons block blocks ih =>
      simp only [processBlocks, bind, Option.bind_eq_some_iff] at hprocess
      obtain ⟨⟨middle, replaced⟩, hblock, ⟨last, rest, restReplaced⟩, hrest, hprocess⟩ := hprocess
      cases hprocess
      obtain ⟨first, hfirst, hrecorded⟩ := processBlock_spec hkeys hblock
      obtain ⟨found, hfound, hlast, hsame⟩ := ih hrest
      refine ⟨first ++ found, .cons hfirst hfound, hrecorded.append hlast, fun hany => ?_⟩
      rw [Bool.or_eq_false_iff, Option.isSome_eq_false_iff, Option.isNone_iff_eq_none] at hany
      rw [hany.1, hsame hany.2, Option.getD_none]

variable {message : Value}
variable {content : Value}

/-- A message of the role `tool` stays, or its text is replaced. -/
theorem processToolMessage_spec (hrole : message.get (text "role") = some (.str (text "tool")))
    (hcontent : message.getOr (text "content") (.str []) = some content)
    (hprocess : processToolMessage config format digest storeCall replacements state message
      content = some (behind, replaced)) :
    (replaced = none ∧ behind = state) ∨ ∃ processed found, replaced = some processed ∧
      MessageRewrite message found processed ∧
      Recorded config format digest storeCall replacements state found behind := by
  simp only [processToolMessage, bind, Option.bind_eq_some_iff] at hprocess
  obtain ⟨id, hid, found, hfound, hprocess⟩ := hprocess
  split at hprocess
  · next classification content =>
      obtain ⟨key, hkey, hget⟩ := replacementOf_spec hfound
      obtain rfl := hkeys key classification hget
      simp only [Option.bind_eq_some_iff] at hprocess
      obtain ⟨⟨next, written⟩, hwritten, hprocess⟩ := hprocess
      cases written with
      | none =>
          cases hprocess
          exact .inl ⟨rfl, rfl⟩
      | some written =>
          simp only [Option.bind_eq_some_iff] at hprocess
          obtain ⟨transform, htransform, before, hbefore, behind, hbehind, hprocess⟩ := hprocess
          obtain rfl := eq_encode_of_encodeText hbefore
          obtain rfl := eq_encode_of_encodeText hbehind
          cases hprocess
          refine .inr ⟨_, [⟨classification, content, written.2, written.1, transform, true⟩], rfl,
            .tool hrole ⟨?_, hcontent⟩ rfl,
            recorded_of_replaceContent hget hwritten htransform true⟩
          rw [hid]
          exact hkey
  · cases hprocess
    exact .inl ⟨rfl, rfl⟩

/-- A message whose content is a list stays, or has blocks that are replaced. -/
theorem messageBlocks_spec
    (hcontent : message.getOr (text "content") (.str []) = some (.list blocks))
    (hprocess : processBlocks config format digest storeCall replacements state blocks =
      some (behind, processed, anyReplaced)) :
    ∃ found, MessageRewrite message found
        (if anyReplaced then message.put (text "content") (.list processed) else message) ∧
      Recorded config format digest storeCall replacements state found behind := by
  obtain ⟨found, hfound, hrecorded, hsame⟩ := processBlocks_spec hkeys hprocess
  have hget : message.get (text "content") = some (.list blocks) :=
    Value.get_of_getOr hcontent nofun
  refine ⟨found, ?_, hrecorded⟩
  cases anyReplaced with
  | true => exact .blocks hget hfound
  | false =>
      have hput : message.put (text "content") (.list processed) = message := by
        rw [hsame rfl]
        exact Value.put_self hget
      have hblocks := MessageRewrite.blocks hget hfound
      rw [hput] at hblocks
      exact hblocks

/-- A message that is not replaced in the role `tool`. -/
theorem otherMessage_spec {processed : Value}
    (hprocess : (match (none : Option Value), content with
      | some message, _ => some (state, message)
      | none, .list blocks =>
          (processBlocks config format digest storeCall replacements state blocks).bind
            fun found => some (found.1,
              if found.2.2 then message.put (text "content") (.list found.2.1) else message)
      | none, _ => some (state, message)) = some (behind, processed))
    (hcontent : message.getOr (text "content") (.str []) = some content) :
    ∃ found, MessageRewrite message found processed ∧
      Recorded config format digest storeCall replacements state found behind := by
  cases content with
  | list blocks =>
      obtain ⟨⟨last, rest, anyReplaced⟩, hblocks, hprocess⟩ := Option.bind_eq_some_iff.mp hprocess
      cases hprocess
      exact messageBlocks_spec hkeys hcontent hblocks
  | _ =>
      cases hprocess
      exact ⟨[], .same message, .refl _⟩

/-- A message behind the pass. -/
theorem processMessage_spec {processed : Value}
    (hprocess : processMessage config format digest storeCall replacements state message =
      some (behind, processed)) :
    ∃ found, MessageRewrite message found processed ∧
      Recorded config format digest storeCall replacements state found behind := by
  simp only [processMessage, bind, Option.bind_eq_some_iff] at hprocess
  obtain ⟨role, hrole, content, hcontent, hprocess⟩ := hprocess
  by_cases htool : role.isText (text "tool") = true
  · rw [if_pos htool] at hprocess
    obtain ⟨⟨last, replaced⟩, hreplaced, hrest⟩ := Option.bind_eq_some_iff.mp hprocess
    obtain rfl := Value.eq_of_isText htool
    have hget := Value.get_of_getOr hrole fun heq => absurd (Value.str.inj heq) (by decide)
    rcases processToolMessage_spec hkeys hget hcontent hreplaced with
      ⟨rfl, rfl⟩ | ⟨found, records, rfl, hfound, hrecorded⟩
    · exact otherMessage_spec hkeys hrest hcontent
    · cases hrest
      exact ⟨records, hfound, hrecorded⟩
  · rw [if_neg htool] at hprocess
    exact otherMessage_spec hkeys hprocess hcontent

/-- The messages behind the pass. -/
theorem processMessages_spec {messages : List Value}
    (hprocess : processMessages config format digest storeCall replacements state messages =
      some (behind, processed)) :
    ∃ steps, MessagesRewrite messages steps ∧ processed = steps.map Prod.snd ∧
      Recorded config format digest storeCall replacements state (steps.flatMap Prod.fst)
        behind := by
  induction messages generalizing state processed with
  | nil =>
      cases hprocess
      exact ⟨[], .nil, rfl, .refl _⟩
  | cons message messages ih =>
      simp only [processMessages, bind, Option.bind_eq_some_iff] at hprocess
      obtain ⟨⟨middle, first⟩, hfirst, ⟨last, rest⟩, hrest, hprocess⟩ := hprocess
      cases hprocess
      obtain ⟨found, hfound, hrecorded⟩ := processMessage_spec hkeys hfirst
      obtain ⟨steps, hsteps, rfl, hlast⟩ := ih hrest
      exact ⟨(found, first) :: steps, .cons hfound hsteps, rfl, hrecorded.append hlast⟩

end

theorem mem_of_replacementsOf {classifications : List ReadClassification} {key : Key}
    (hget : (replacementsOf classifications).get? key = some classification) :
    classification ∈ classifications ∧ classification.state ≠ .fresh ∧
      classification.toolCallId = key := by
  rcases Dict.mem_foldl_set ReadClassification.toolCallId id (Dict.get?_eq_some_iff.mp hget) with
    ⟨item, hitem, heq⟩ | hmem
  · cases heq
    obtain ⟨hmem, hstate⟩ := List.mem_filter.mp hitem
    exact ⟨hmem, of_decide_eq_true hstate, rfl⟩
  · exact absurd hmem List.not_mem_nil

variable {messages : List Value}

/-- A message behind the pass is that of the same index with contents replaced. -/
theorem exists_of_messagesRewrite {steps : List (List Replacement × Value)}
    (hrewrite : MessagesRewrite messages steps) {index : ℕ} {step : List Replacement × Value}
    (hstep : steps[index]? = some step) :
    ∃ message, messages[index]? = some message ∧ MessageRewrite message step.1 step.2 := by
  obtain ⟨hindex, rfl⟩ := List.getElem?_eq_some_iff.mp hstep
  have hlength : index < messages.length := hrewrite.length_eq ▸ hindex
  exact ⟨messages[index], List.getElem?_eq_getElem hlength, hrewrite.get hlength hindex⟩

def LifecycleState.result (state : LifecycleState Store) (messages : List Value)
    (classifications : List ReadClassification) : ReadLifecycleResult :=
  ⟨messages, classifications.length, countState .stale classifications,
    countState .superseded classifications, countState .fresh classifications,
    state.bytesBefore, state.bytesAfter, state.transforms, state.ccrHashes⟩

/-- A request leaves everything, or replaces contents and records each of them. -/
theorem apply_spec {otherCovers : FileOperation → FileOperation → Option Bool}
    {store behind : Store} {frozen : ℤ} {result : ReadLifecycleResult}
    (happly : apply otherCovers format digest storeCall config store messages frozen =
      some (behind, result)) :
    (∃ reads, behind = store ∧ result = .unchanged messages reads) ∨
      ∃ classifications steps last,
        classified otherCovers format config messages frozen = some classifications ∧
        MessagesRewrite messages steps ∧
        Recorded config format digest storeCall (replacementsOf classifications)
          ⟨store, [], [], 0, 0⟩ (steps.flatMap Prod.fst) last ∧
        behind = last.store ∧
        result = last.result (steps.map Prod.snd) classifications := by
  rw [apply] at happly
  by_cases henabled : (!config.enabled) = true
  · rw [if_pos henabled] at happly
    cases happly
    exact .inl ⟨0, rfl, rfl⟩
  rw [if_neg henabled] at happly
  obtain ⟨classifications, hclassified, happly⟩ := Option.bind_eq_some_iff.mp happly
  by_cases hempty : classifications.isEmpty = true
  · rw [if_pos hempty] at happly
    cases happly
    exact .inl ⟨0, rfl, rfl⟩
  rw [if_neg hempty, applyLifecycle] at happly
  by_cases hnone : (replacementsOf classifications).entries.isEmpty = true
  · rw [if_pos hnone] at happly
    cases happly
    exact .inl ⟨_, rfl, rfl⟩
  rw [if_neg hnone] at happly
  obtain ⟨⟨last, processed⟩, hprocess, heq⟩ := Option.bind_eq_some_iff.mp happly
  cases heq
  obtain ⟨steps, hsteps, rfl, hrecorded⟩ := processMessages_spec
    (fun key classification hget => (mem_of_replacementsOf hget).2.2) hprocess
  exact .inr ⟨classifications, steps, last, hclassified, hsteps, hrecorded, rfl, rfl⟩

end

end ReadLifecycle

end Legroom.Transforms
