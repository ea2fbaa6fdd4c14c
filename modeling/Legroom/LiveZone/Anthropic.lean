import Legroom.LiveZone.LatestMessage
import Legroom.LiveZone.Surgery

/-!
# The Anthropic live-zone dispatcher

The dispatcher rewrites blocks of the latest user message, if that message is
at or above the frozen floor.  It finds the message in the parsed value, plans
the byte ranges of its blocks on the raw body, lets `compress_one_block` decide
about each, and splices the accepted texts into the body.
-/

namespace Legroom.LiveZone

open Utf8 Json

/-! ## The plan -/

inductive SlotKind where
  | compressible (blockType contentText : Utf8String) (contentByteRange : ℕ × ℕ)
  | stringContent (contentText : Utf8String) (contentByteRange : ℕ × ℕ)
  | hotZone (blockType : Utf8String)
  deriving DecidableEq

structure PlanSlot where
  blockIndex : ℕ
  kind : SlotKind
  deriving DecidableEq

def emptyText : Utf8String := ⟨[], valid_nil⟩

/-- A block without content to compress, at the offset of the block. -/
def SlotKind.withoutContent (blockType : Utf8String) (offset : ℕ) : SlotKind :=
  .compressible blockType emptyText (offset, offset)

/-- The type of a block; typeless blocks with a string `text` are text. -/
def blockTypeOf (header : BlockHeader) (blockRaw : Slice) : Utf8String :=
  match header.type with
  | some type => type
  | none =>
      if blockHasStringTextField blockRaw then constant "text" else constant "unknown"

/-- The field of a block that may be compressed, if there is one. -/
def innerField (blockType : Utf8String) (header : BlockHeader) (blockRaw : Slice) :
    Except PlanError (Option Slice) :=
  if blockType = constant "tool_result" then .ok header.content
  else if blockType = constant "text" then
    (okOr .parseFailed (TextHeader.fromStr blockRaw)).map TextHeader.text
  else .ok none

/-- One pass of the loop of `plan_block_replacements`. -/
def planBlock (contentRaw : Slice) (contentOffset : ℕ) (blockRaw : Slice) :
    Except PlanError SlotKind := do
  let blockOffsetInContent ← bytesOffsetOf contentRaw blockRaw
  let blockOffset := contentOffset + blockOffsetInContent
  let header ← okOr .parseFailed (BlockHeader.fromStr blockRaw)
  let blockType := blockTypeOf header blockRaw
  if blockType ∈ hotZoneBlockTypes then return .hotZone blockType
  match ← innerField blockType header blockRaw with
  | none => return .withoutContent blockType blockOffset
  | some field =>
      let fieldOffset ← bytesOffsetOf blockRaw field
      if startsWithQuote field then
        let unescaped ← okOr .parseFailed field.text
        let start := blockOffset + fieldOffset
        return .compressible blockType unescaped (start, start + field.bytes.length)
      else return .withoutContent blockType blockOffset

def planBlocks (contentRaw : Slice) (contentOffset : ℕ) :
    ℕ → List Slice → Except PlanError (List PlanSlot)
  | _, [] => .ok []
  | blockIndex, blockRaw :: blocks => do
      let kind ← planBlock contentRaw contentOffset blockRaw
      let slots ← planBlocks contentRaw contentOffset (blockIndex + 1) blocks
      return ⟨blockIndex, kind⟩ :: slots

/-- The slots of a message content that starts at `contentOffset`. -/
def planContent (contentRaw : Slice) (contentOffset : ℕ) :
    Except PlanError (List PlanSlot) :=
  if startsWithQuote contentRaw then do
    let unescaped ← okOr .parseFailed contentRaw.text
    return [⟨0, .stringContent unescaped
      (contentOffset, contentOffset + contentRaw.bytes.length)⟩]
  else do
    let blocks ← okOr .parseFailed contentRaw.rawElements
    planBlocks contentRaw contentOffset 0 blocks

def planBlockReplacements (bodyRaw : Bytes) (target : ℕ) :
    Except PlanError (List PlanSlot) := do
  match ← locateContent bodyRaw target with
  | none => return []
  | some (contentRaw, contentOffset) => planContent contentRaw contentOffset

/-! ## The walk over the slots -/

variable (backend : Backend) {State : Type*} (model : Utf8String)
  (ccrStore : Option (CcrStore State))

def dispatchSlot (target : ℕ) (slot : PlanSlot) (progress : Progress State) :
    BlockOutcome × Progress State :=
  match slot.kind with
  | .hotZone blockType =>
      (⟨target, some slot.blockIndex, blockType, .excluded .hotZoneBlockType⟩, progress)
  | .compressible blockType contentText contentByteRange =>
      compressOneBlock backend model ccrStore
        ⟨contentText, contentByteRange, target, some slot.blockIndex, blockType⟩
        (backend.detectContentType contentText) progress
  | .stringContent contentText contentByteRange =>
      compressOneBlock backend model ccrStore
        ⟨contentText, contentByteRange, target, none, constant "string_content"⟩
        (backend.detectContentType contentText) progress

/-- The report on a message whose byte ranges could not be planned. -/
def inspectLatestUserBlocksValue (message : Value) (target : ℕ) :
    Option (List BlockOutcome) := do
  let content ← message.get (constant "content")
  if content.asStr.isSome then
    return [⟨target, none, constant "string_content",
      .noCompressionApplied (constant "text")⟩]
  let blocks ← content.asArray
  return blocks.mapIdx fun position block =>
    let blockType :=
      ((block.get (constant "type")).bind Value.asStr).getD (constant "unknown")
    let action : BlockAction :=
      if blockType ∈ hotZoneBlockTypes then .excluded .hotZoneBlockType
      else .noCompressionApplied (constant "unknown")
    ⟨target, some position, blockType, action⟩

/-! ## The dispatcher -/

def compressAnthropicLiveZoneWithCcr (bodyRaw : Bytes) (frozenMessageCount : ℕ)
    (_authMode : AuthMode) (store : State) :
    Except LiveZoneError LiveZoneOutcome × State :=
  match valueFromSlice bodyRaw with
  | none => (.error .bodyNotJson, store)
  | some parsed =>
      match (parsed.get (constant "messages")).bind Value.asArray with
      | none => (.error .noMessagesArray, store)
      | some messages =>
          if messages = [] then (.ok (.noChange .empty), store)
          else
            let manifest : CompressionManifest :=
              ⟨messages.length, min frozenMessageCount messages.length, none, []⟩
            match findLatestUserMessageIndex messages frozenMessageCount with
            | none => (.ok (.noChange manifest), store)
            | some target =>
                let manifest := { manifest with latestUserMessageIndex := some target }
                match planBlockReplacements bodyRaw target with
                | .error _ =>
                    let outcomes := ((messages[target]?).bind fun message =>
                      inspectLatestUserBlocksValue message target).getD []
                    (.ok (.noChange { manifest with blockOutcomes := outcomes }), store)
                | .ok plan =>
                    let ran := runBlocks (dispatchSlot backend model ccrStore target)
                      plan ⟨[], store⟩
                    let manifest := { manifest with blockOutcomes := ran.1 }
                    (.ok (finishBody bodyRaw manifest ran.2.replacements), ran.2.store)

/-- The dispatcher without a store. -/
def compressAnthropicLiveZone (bodyRaw : Bytes) (frozenMessageCount : ℕ)
    (authMode : AuthMode) : Except LiveZoneError LiveZoneOutcome :=
  (@compressAnthropicLiveZoneWithCcr backend Unit model none bodyRaw frozenMessageCount
    authMode ()).1

/-!
## What the Anthropic dispatcher plans

The planner works on raw spans, the choice of the message on the parsed value.
They agree: every slot with enough text for a compressor is the string literal
at a rewritable path of the latest user message.
-/

/-! ## Rewritable texts -/

/-- Where a block has a text that may be compressed.  A block is usually an object,
but it is also read from the list of its fields. -/
inductive BlockText (block : Value) : Path → Prop
  | text (htype : block.get (constant "type") = some (.string (constant "text"))) :
      BlockText block [.key (constant "text")]
  | typeless (htype : ∀ type ∈ block.get (constant "type"), type = .null) :
      BlockText block [.key (constant "text")]
  | toolResult
      (htype : block.get (constant "type") = some (.string (constant "tool_result"))) :
      BlockText block [.key (constant "content")]
  | listed (content : Value)
      (hblock : block = .array [.string (constant "tool_result"), content]) :
      BlockText block [.index 1]

/-- Where a message has a text that may be compressed. -/
inductive Rewritable (message : Value) : Path → Prop
  | content (text : Utf8String)
      (hcontent : message.get (constant "content") = some (.string text)) :
      Rewritable message [.key (constant "content")]
  | block {blocks : List Value} {position : ℕ} {block : Value} {path : Path}
      (hcontent : message.get (constant "content") = some (.array blocks))
      (hblock : blocks[position]? = some block) (hpath : BlockText block path) :
      Rewritable message (.key (constant "content") :: .index position :: path)

/-! ## The plan of a block -/

variable {header : BlockHeader} {blockRaw field : Slice}

theorem innerField_cases {blockType : Utf8String}
    (hfield : innerField blockType header blockRaw = .ok (some field)) :
    (blockType = constant "tool_result" ∧ header.content = some field) ∨
      (blockType = constant "text" ∧
        ∃ view, TextHeader.fromStr blockRaw = some view ∧ view.text = some field) := by
  rw [innerField] at hfield
  split_ifs at hfield with htool htext
  · exact Or.inl ⟨htool, Except.ok.inj hfield⟩
  · cases hview : TextHeader.fromStr blockRaw with
    | none =>
        rw [hview] at hfield
        cases hfield
    | some view =>
        rw [hview] at hfield
        exact Or.inr ⟨htext, view, rfl, Except.ok.inj hfield⟩
  · cases hfield

/-- Only a written type makes a block a tool result. -/
theorem type_of_toolResult (htype : blockTypeOf header blockRaw = constant "tool_result") :
    header.type = some (constant "tool_result") := by
  cases hheader : header.type with
  | some type =>
      rw [blockTypeOf, hheader] at htype
      exact congrArg some htype
  | none =>
      rw [blockTypeOf, hheader] at htype
      simp only at htype
      split_ifs at htype <;> exact absurd htype (by decide)

theorem type_of_text (htype : blockTypeOf header blockRaw = constant "text") :
    header.type = none ∨ header.type = some (constant "text") := by
  cases hheader : header.type with
  | none => exact Or.inl rfl
  | some type =>
      rw [blockTypeOf, hheader] at htype
      exact Or.inr (congrArg some htype)

variable {block : Located}
variable {fields : List (Utf8String × Value)}

theorem innerField_of_object (hdenote : block.value.denote = some (.object fields))
    (hheader : BlockHeader.fromStr block.slice = some header)
    (hfield : innerField (blockTypeOf header block.slice) header block.slice = .ok (some field)) :
    ∃ part path, field = part.slice ∧ BlockText (.object fields) path ∧
      Reaches block path part := by
  obtain ⟨type, content, htypeField, hcontentField, htype, hcontent⟩ :=
    BlockHeader.spec hdenote hheader
  have hget := type_of_header hdenote htypeField htype
  rcases innerField_cases hfield with ⟨htool, hsome⟩ | ⟨htext, view, hview, hsome⟩
  · rw [type_of_toolResult htool] at hget
    obtain ⟨part, hslice, hreaches⟩ :=
      reaches_of_optionalRaw hcontentField (hcontent.symm.trans hsome)
    exact ⟨part, _, hslice, .toolResult hget, hreaches⟩
  · obtain ⟨found, hfound, htextField⟩ := TextHeader.spec hdenote hview
    obtain ⟨part, hslice, hreaches⟩ :=
      reaches_of_optionalRaw hfound (htextField.symm.trans hsome)
    rcases type_of_text htext with hnone | htype
    · rw [hnone] at hget
      exact ⟨part, _, hslice, .typeless hget, hreaches⟩
    · rw [htype] at hget
      exact ⟨part, _, hslice, .text hget, hreaches⟩

/-- In a block that lists its fields, the text is at most the word `text`. -/
theorem innerField_of_array {values : List Value}
    (hdenote : block.value.denote = some (.array values))
    (hheader : BlockHeader.fromStr block.slice = some header)
    (hfield : innerField (blockTypeOf header block.slice) header block.slice = .ok (some field)) :
    ∃ part, field = part.slice ∧
      (part.value.denote = some (.string (constant "text")) ∨
        ∃ path, BlockText (.array values) path ∧ Reaches block path part) := by
  obtain ⟨hlength, htype, hcontent⟩ := BlockHeader.listed hdenote hheader
  rcases innerField_cases hfield with ⟨htool, hsome⟩ | ⟨htext, view, hview, hsome⟩
  · obtain ⟨part, hpart, hslice⟩ := slice_of_optionalRaw (hcontent.symm.trans hsome)
    obtain ⟨content, hcontentValue, _⟩ := Located.denote_getElem hdenote hpart
    rw [type_of_toolResult htool] at htype
    cases hfirst : block.elements[0]? with
    | none =>
        rw [hfirst] at htype
        cases htype
    | some first =>
        rw [hfirst] at htype
        obtain ⟨value, hvalue, hdenoteFirst⟩ := Located.denote_getElem hdenote hfirst
        rw [string_of_optionalText htype] at hdenoteFirst
        cases hdenoteFirst
        have hvalues : values = [.string (constant "tool_result"), content] := by
          rw [Located.length_elements hdenote] at hlength
          match values, hlength, hvalue, hcontentValue with
          | [_, _], _, rfl, rfl => rfl
        exact ⟨part, hslice, Or.inr ⟨_, .listed content (congrArg _ hvalues),
          .index hpart (.here part)⟩⟩
  · rcases type_of_text htext with hnone | hwritten
    · obtain ⟨part, hpart, hslice⟩ :=
        slice_of_optionalRaw ((TextHeader.listed hdenote hview).symm.trans hsome)
      rw [hpart, hnone] at htype
      rw [TextHeader.listed hdenote hview, hpart, optionalRaw,
        if_pos (isNull_of_optionalText htype part rfl)] at hsome
      cases hsome
    · obtain ⟨part, hslice, hpart⟩ :=
        TextHeader.text_spec hdenote hheader hwritten hview hsome
      refine ⟨part, hslice, hpart.imp_right ?_⟩
      rintro ⟨hget, hreaches⟩
      exact ⟨_, .text hget, hreaches⟩

variable {contentRaw : Slice}
variable {text : Utf8String} {range : ℕ × ℕ}

/-- The range that a block plans for a long text is where the text stands. -/
theorem planBlock_spec {value : Value} (hdenote : block.value.denote = some value)
    {type : Utf8String}
    (hplan : planBlock contentRaw contentRaw.start block.slice =
      .ok (.compressible type text range))
    (hlong : (constant "text").bytes.length < text.bytes.length) :
    ∃ path lit, BlockText value path ∧ Reaches block path ⟨range.1, .string lit⟩ ∧
      range.2 = range.1 + lit.bytes.length ∧ lit.text = some text := by
  obtain ⟨blockOffset, hblock, hplan⟩ := ok_of_bind hplan
  obtain ⟨header, hheader, hplan⟩ := ok_of_bind hplan
  rw [okOr_eq_ok] at hheader
  simp only at hplan
  split_ifs at hplan with hhot
  · cases hplan
  obtain ⟨found, hfield, hplan⟩ := ok_of_bind hplan
  cases found with
  | none =>
      cases hplan
      exact absurd hlong (Nat.not_lt_zero _)
  | some field =>
      obtain ⟨fieldOffset, hoffset, hplan⟩ := ok_of_bind hplan
      split_ifs at hplan with hquote
      · obtain ⟨unescaped, hunescaped, hplan⟩ := ok_of_bind hplan
        rw [okOr_eq_ok] at hunescaped
        cases hplan
        have hpart : ∃ part, field = part.slice ∧
            (part.value.denote = some (.string (constant "text")) ∨
              ∃ path, BlockText value path ∧ Reaches block path part) := by
          cases value with
          | object fields =>
              obtain ⟨part, path, hslice, hpath, hreaches⟩ :=
                innerField_of_object hdenote hheader hfield
              exact ⟨part, hslice, Or.inr ⟨path, hpath, hreaches⟩⟩
          | array values => exact innerField_of_array hdenote hheader hfield
          | _ =>
              rw [BlockHeader.fromStr, record_slice, Located.record_eq_none hdenote
                (by simp) (by simp)] at hheader
              cases hheader
        obtain ⟨part, rfl, hpart⟩ := hpart
        obtain ⟨lit, hlit, hbytes, htext⟩ := literal_of_startsWithQuote hquote hunescaped
        rw [hlit] at hpart
        rcases hpart with hshort | ⟨path, hpath, hreaches⟩
        · rw [text_of_denote hshort htext] at hlong
          exact absurd hlong (Nat.lt_irrefl _)
        · have hstart := start_of_bytesOffsetOf hoffset
          rw [← start_of_bytesOffsetOf hblock] at hstart
          refine ⟨path, lit, hpath, ?_, by rw [hbytes], htext⟩
          simp only at hstart ⊢
          rwa [hstart]
      · cases hplan
        exact absurd hlong (Nat.not_lt_zero _)

variable {contentOffset : ℕ}

/-- A block of a list is no string content. -/
theorem planBlock_ne_stringContent :
    planBlock contentRaw contentOffset blockRaw ≠ .ok (.stringContent text range) := by
  intro hplan
  obtain ⟨blockOffset, hblock, hplan⟩ := ok_of_bind hplan
  obtain ⟨header, hheader, hplan⟩ := ok_of_bind hplan
  simp only at hplan
  split_ifs at hplan
  · cases hplan
  obtain ⟨found, hfield, hplan⟩ := ok_of_bind hplan
  cases found with
  | none => cases hplan
  | some field =>
      obtain ⟨fieldOffset, hoffset, hplan⟩ := ok_of_bind hplan
      split_ifs at hplan
      · obtain ⟨unescaped, hunescaped, hplan⟩ := ok_of_bind hplan
        cases hplan
      · cases hplan

/-! ## The plan of a message -/

variable {plan : List PlanSlot}

theorem planBlocks_spec {start : ℕ} {blocks : List Slice}
    (hplan : planBlocks contentRaw contentOffset start blocks = .ok plan) :
    (plan.Pairwise fun left right => left.blockIndex ≠ right.blockIndex) ∧
      ∀ slot ∈ plan, start ≤ slot.blockIndex ∧
        ∃ blockRaw, blocks[slot.blockIndex - start]? = some blockRaw ∧
          planBlock contentRaw contentOffset blockRaw = .ok slot.kind := by
  induction blocks generalizing start plan with
  | nil =>
      cases hplan
      exact ⟨.nil, fun slot hslot => by cases hslot⟩
  | cons blockRaw blocks ih =>
      obtain ⟨kind, hkind, hplan⟩ := ok_of_bind hplan
      obtain ⟨slots, hslots, hplan⟩ := ok_of_bind hplan
      cases hplan
      obtain ⟨hpairwise, hlater⟩ := ih hslots
      refine ⟨.cons (fun slot hslot => ?_) hpairwise, fun slot hslot => ?_⟩
      · exact Nat.ne_of_lt (hlater slot hslot).1
      · rcases List.mem_cons.mp hslot with rfl | hslot
        · refine ⟨le_rfl, blockRaw, ?_, hkind⟩
          rw [Nat.sub_self, List.getElem?_cons_zero]
        · obtain ⟨hstart, later, hget, hplanned⟩ := hlater slot hslot
          refine ⟨by omega, later, ?_, hplanned⟩
          rw [show slot.blockIndex - start = slot.blockIndex - (start + 1) + 1 by omega,
            List.getElem?_cons_succ]
          exact hget

variable (backend : Backend) {State : Type*} (model : Utf8String)
  (ccrStore : Option (CcrStore State))

/-- What is decided for a planned slot. -/
def PlanSlot.decide (target : ℕ) (slot : PlanSlot) : Decision :=
  match slot.kind with
  | .hotZone blockType =>
      (⟨target, some slot.blockIndex, blockType, .excluded .hotZoneBlockType⟩, none)
  | .compressible blockType contentText contentByteRange =>
      decideSlot backend model ccrStore
        ⟨contentText, contentByteRange, target, some slot.blockIndex, blockType⟩
  | .stringContent contentText contentByteRange =>
      decideSlot backend model ccrStore
        ⟨contentText, contentByteRange, target, none, constant "string_content"⟩

theorem dispatchSlot_eq (target : ℕ) (slot : PlanSlot) (progress : Progress State) :
    dispatchSlot backend model ccrStore target slot progress =
      ((slot.decide backend model ccrStore target).1,
        progress.recordAll backend ccrStore
          (slot.decide backend model ccrStore target).2.toList) := by
  obtain ⟨blockIndex, kind⟩ := slot
  cases kind with
  | hotZone blockType =>
      simp [dispatchSlot, PlanSlot.decide, Progress.recordAll]
  | compressible blockType contentText contentByteRange =>
      exact compressOneBlock_eq backend model ccrStore _ _ progress
  | stringContent contentText contentByteRange =>
      exact compressOneBlock_eq backend model ccrStore _ _ progress

theorem isCompressed_decide (target : ℕ) (slot : PlanSlot) :
    (slot.decide backend model ccrStore target).1.action.isCompressed =
      (slot.decide backend model ccrStore target).2.isSome := by
  obtain ⟨blockIndex, kind⟩ := slot
  cases kind with
  | hotZone blockType => rfl
  | compressible blockType contentText contentByteRange =>
      exact isCompressed_decideSlot backend model ccrStore _
  | stringContent contentText contentByteRange =>
      exact isCompressed_decideSlot backend model ccrStore _

/-- The paths of the body that the dispatcher may rewrite. -/
def RewritableIn (messages : List Value) (target : ℕ) (path : Path) : Prop :=
  ∃ message rest, messages[target]? = some message ∧ Rewritable message rest ∧
    path = .key (constant "messages") :: .index target :: rest

section Content

variable {document : Document} {messages : List Value} {target : ℕ} {message : Value}
  {content : Located} {plan : List PlanSlot}

/-- A string content is planned as one slot. -/
theorem settled_stringContent (hmessage : messages[target]? = some message)
    (hreaches : Reaches document.root
      [.key (constant "messages"), .index target, .key (constant "content")] content)
    {value : Value} (hcontent : message.get (constant "content") = some value)
    (hdenote : content.value.denote = some value)
    (hquote : startsWithQuote content.slice = true)
    (hplan : planContent content.slice content.start = .ok plan) :
    Settled backend model ccrStore document.root contentHome
      (RewritableIn messages target)
      (plan.map (PlanSlot.decide backend model ccrStore target)) := by
  rw [planContent, if_pos hquote] at hplan
  obtain ⟨text, htext, hplan⟩ := ok_of_bind hplan
  rw [okOr_eq_ok, text_slice] at htext
  cases hplan
  obtain ⟨start, tree⟩ := content
  obtain ⟨lit, hvalue⟩ := string_of_startsWithQuote hquote
  cases hvalue
  obtain ⟨written, hwritten, heq⟩ := Option.map_eq_some_iff.mp hdenote
  cases heq
  refine ⟨?_, ?_, List.pairwise_singleton _ _⟩
  · intro decision hdecision
    obtain ⟨slot, _, rfl⟩ := List.mem_map.mp hdecision
    exact isCompressed_decide backend model ccrStore target slot
  · intro decision hdecision swap hswap
    rw [List.map_singleton, List.mem_singleton] at hdecision
    subst hdecision
    obtain ⟨hslot, _⟩ := slot_of_decideSlot backend model ccrStore hswap
    rw [hslot]
    refine ⟨rfl, _, ⟨lit, hreaches, rfl, htext⟩, List.prefix_rfl, ?_⟩
    exact ⟨message, _, hmessage, .content written hcontent, rfl⟩

theorem home_decide (target : ℕ) {slot : PlanSlot} {contentRaw blockRaw : Slice} {contentOffset : ℕ}
    (hplanned : planBlock contentRaw contentOffset blockRaw = .ok slot.kind) :
    contentHome (slot.decide backend model ccrStore target).1 =
      [.key (constant "messages"), .index target, .key (constant "content")] ++
        [.index slot.blockIndex] := by
  obtain ⟨blockIndex, kind⟩ := slot
  cases kind with
  | hotZone blockType => rfl
  | compressible blockType contentText contentByteRange => rfl
  | stringContent contentText contentByteRange =>
      exact absurd hplanned planBlock_ne_stringContent

/-- The blocks of an array are planned one by one. -/
theorem settled_blocks (hmessage : messages[target]? = some message)
    (hreaches : Reaches document.root
      [.key (constant "messages"), .index target, .key (constant "content")] content)
    {values : List Value} (hcontent : message.get (constant "content") = some (.array values))
    (hdenote : content.value.denote = some (.array values))
    (hplan : planBlocks content.slice content.start 0
      (content.elements.map Located.slice) = .ok plan) :
    Settled backend model ccrStore document.root contentHome
      (RewritableIn messages target)
      (plan.map (PlanSlot.decide backend model ccrStore target)) := by
  obtain ⟨hpairwise, hslots⟩ := planBlocks_spec hplan
  refine ⟨?_, ?_, ?_⟩
  · intro decision hdecision
    obtain ⟨slot, _, rfl⟩ := List.mem_map.mp hdecision
    exact isCompressed_decide backend model ccrStore target slot
  · intro decision hdecision swap hswap
    obtain ⟨slot, hslot, rfl⟩ := List.mem_map.mp hdecision
    obtain ⟨_, blockRaw, hget, hplanned⟩ := hslots slot hslot
    rw [List.getElem?_map, Option.map_eq_some_iff] at hget
    obtain ⟨block, hblock, rfl⟩ := hget
    obtain ⟨value, hvalue, hblockDenote⟩ := Located.denote_getElem hdenote hblock
    have hhome := home_decide backend model ccrStore target hplanned
    obtain ⟨blockIndex, kind⟩ := slot
    cases kind with
    | hotZone blockType => cases hswap
    | stringContent contentText contentByteRange =>
        exact absurd hplanned planBlock_ne_stringContent
    | compressible blockType contentText contentByteRange =>
        obtain ⟨hsame, hlength⟩ := slot_of_decideSlot backend model ccrStore hswap
        have hlong : (constant "text").bytes.length < contentText.bytes.length :=
          Nat.lt_of_lt_of_le (by decide) hlength
        obtain ⟨path, lit, hpath, hinner, hstop, htext⟩ :=
          planBlock_spec hblockDenote hplanned hlong
        rw [hhome, hsame]
        refine ⟨rfl, _, ⟨lit, hreaches.trans (.index hblock hinner), hstop, htext⟩, ?_,
          message, _, hmessage, .block hcontent hvalue hpath, rfl⟩
        exact ⟨path, rfl⟩
  · rw [List.pairwise_map]
    refine hpairwise.imp_of_mem fun {left right} hleft hright hne => ?_
    obtain ⟨_, _, _, hplannedLeft⟩ := hslots left hleft
    obtain ⟨_, _, _, hplannedRight⟩ := hslots right hright
    rw [home_decide backend model ccrStore target hplannedLeft,
      home_decide backend model ccrStore target hplannedRight]
    exact apart_index hne

/-- The decisions on a planned message concern rewritable texts. -/
theorem settled_planContent (hmessage : messages[target]? = some message)
    (hreaches : Reaches document.root
      [.key (constant "messages"), .index target, .key (constant "content")] content)
    {value : Value} (hcontent : message.get (constant "content") = some value)
    (hdenote : content.value.denote = some value)
    (hplan : planContent content.slice content.start = .ok plan) :
    Settled backend model ccrStore document.root contentHome
      (RewritableIn messages target)
      (plan.map (PlanSlot.decide backend model ccrStore target)) := by
  cases hquote : startsWithQuote content.slice with
  | true =>
      exact settled_stringContent backend model ccrStore hmessage hreaches hcontent hdenote
        hquote hplan
  | false =>
      rw [planContent, if_neg (by rw [hquote]; exact Bool.false_ne_true)] at hplan
      obtain ⟨blocks, hblocks, hplan⟩ := ok_of_bind hplan
      rw [okOr_eq_ok, rawElements_slice] at hblocks
      obtain ⟨values, rfl⟩ := array_of_rawElements hblocks hdenote
      rw [elements_of_rawElements hblocks] at hplan
      exact settled_blocks backend model ccrStore hmessage hreaches hcontent hdenote hplan

end Content

/-! ## The whole run -/

/-- The report on a message that could not be planned. -/
theorem inspected_kept (message : Value) (target : ℕ) :
    (∀ outcome ∈ (inspectLatestUserBlocksValue message target).getD [],
      outcome.action.isCompressed = false) ∧
      ((inspectLatestUserBlocksValue message target).getD []).Pairwise
        fun left right => Apart (contentHome left) (contentHome right) := by
  cases hinspect : inspectLatestUserBlocksValue message target with
  | none => exact ⟨by simp, .nil⟩
  | some outcomes =>
      simp only [inspectLatestUserBlocksValue, bind, Option.bind_eq_some_iff] at hinspect
      obtain ⟨content, _, hinspect⟩ := hinspect
      split_ifs at hinspect with hstring
      · cases hinspect
        exact ⟨by simp [BlockAction.isCompressed], List.pairwise_singleton _ _⟩
      · obtain ⟨blocks, _, hinspect⟩ := Option.bind_eq_some_iff.mp hinspect
        cases hinspect
        refine ⟨fun outcome houtcome => ?_, ?_⟩
        · obtain ⟨position, _, rfl⟩ := List.mem_mapIdx.mp houtcome
          simp only
          split_ifs <;> rfl
        · rw [List.pairwise_iff_getElem]
          intro left right hleft hright hlt
          simp only [List.getElem_mapIdx, Option.getD_some]
          exact apart_index (Nat.ne_of_lt hlt)

variable {document : Document} {messages : List Value}

/-- The plan of the target concerns its rewritable texts. -/
theorem settled_plan (hdenote : document.root.value.denote = some (.object fields))
    (hmessages : (Value.object fields).get (constant "messages") = some (.array messages))
    {target : ℕ} {message : List (Utf8String × Value)}
    (hmessage : messages[target]? = some (.object message))
    (hplan : planBlockReplacements document.render target = .ok plan) :
    Settled backend model ccrStore document.root contentHome
      (RewritableIn messages target)
      (plan.map (PlanSlot.decide backend model ccrStore target)) := by
  obtain ⟨located, hlocate, hplan⟩ := ok_of_bind hplan
  cases located with
  | none =>
      cases hplan
      exact settled_nil
  | some located =>
      obtain ⟨contentRaw, offset⟩ := located
      obtain ⟨content, rfl, rfl, hreaches⟩ :=
        locateContent_spec hdenote hmessages hmessage hlocate
      obtain ⟨value, hvalue, hcontent⟩ := hreaches.denote hdenote
      simp [Value.at?, hmessages, Value.asArray, hmessage] at hvalue
      exact settled_planContent backend model ccrStore hmessage hreaches hvalue hcontent
        hplan

/-- Where the dispatcher may write, given the messages and the floor. -/
def AnthropicAllowed (messages : List Value) (floor : ℕ) (path : Path) : Prop :=
  ∃ target, Latest (constant "user") messages floor target ∧ RewritableIn messages target path

/-- Every run on a body with messages is a list of settled decisions. -/
theorem compressAnthropic_settled {value : Value}
    (hvalue : valueFromSlice document.render = some value)
    (hmessages : value.get (constant "messages") = some (.array messages)) (frozenMessageCount : ℕ)
    (authMode : AuthMode) (store : State) :
    ∃ decisions manifest,
      SettledRun backend model ccrStore contentHome
        (AnthropicAllowed messages frozenMessageCount) document store decisions manifest
        (compressAnthropicLiveZoneWithCcr backend model ccrStore document.render
          frozenMessageCount authMode store) := by
  have hdenote : document.root.value.denote = some value := by
    rw [valueFromSlice, parseDocument_eq_some_iff.mpr rfl, Option.bind_some] at hvalue
    split_ifs at hvalue
    exact hvalue
  obtain ⟨fields, rfl⟩ := object_of_get hmessages
  rw [compressAnthropicLiveZoneWithCcr]
  simp only [hvalue, hmessages, Option.bind_some, Value.asArray]
  split_ifs with hempty
  · exact ⟨_, _, settledRun_of_kept (by simp [CompressionManifest.empty]) .nil⟩
  have hfind := findLatestUserMessageIndex_spec messages frozenMessageCount
  cases htarget : findLatestUserMessageIndex messages frozenMessageCount with
  | none => exact ⟨_, _, settledRun_of_kept (by simp) .nil⟩
  | some target =>
      rw [htarget] at hfind
      obtain ⟨message, hmessage⟩ := object_of_isRole hfind.role_eq
      simp only
      cases hplan : planBlockReplacements document.render target with
      | error error =>
          obtain ⟨hkept, hapart⟩ := inspected_kept (.object message) target
          simp only [hmessage, Option.bind_some]
          exact ⟨_, _, settledRun_of_kept hkept hapart⟩
      | ok plan =>
          have hsettled := settled_plan backend model ccrStore hdenote hmessages hmessage
            hplan
          exact ⟨_, _, settledRun_of_blocks (dispatchSlot_eq backend model ccrStore target)
            (hsettled.mono fun path hpath => ⟨target, hfind, hpath⟩) rfl⟩

end Legroom.LiveZone
