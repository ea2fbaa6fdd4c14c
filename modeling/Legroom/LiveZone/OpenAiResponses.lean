import Legroom.LiveZone.Surgery

/-!
# The OpenAI Responses dispatcher

The live zone of a Responses request is every output item with a string payload,
except the outputs of retrieval calls: those must reach the model byte for byte,
wherever in the request the call stands.
-/

namespace Legroom.LiveZone

open Utf8 Json

def responsesOutputMinBytes : ℕ := 512

def outputItemTypes : List Utf8String :=
  [constant "function_call_output", constant "local_shell_call_output",
    constant "apply_patch_call_output"]

/-! ## Retrieval calls -/

/-- A field of an item, if it is a text. -/
def textField (item : Value) (name : Utf8String) : Option Utf8String :=
  (item.get name).bind Value.asStr

def isRetrieveName (name : Utf8String) : Bool :=
  name = constant "legroom_retrieve" ||
    (constant "__legroom_retrieve").bytes.isSuffixOf name.bytes

/-- The id of a call of the retrieval tool. -/
def retrieveCallId (item : Value) : Option Utf8String :=
  if textField item (constant "type") ≠ some (constant "function_call") then none
  else if isRetrieveName ((textField item (constant "name")).getD (constant "")) then
    textField item (constant "call_id")
  else none

def legroomRetrieveCallIds (items : List Value) : List Utf8String :=
  items.filterMap retrieveCallId

/-- An output item whose call is one of the retrieval calls. -/
def isRetrieveOutput (callIds : List Utf8String) (item : Value) : Bool :=
  (textField item (constant "call_id")).any fun callId => callId ∈ callIds

/-- The output items from `index` on, with their types. -/
def outputCandidates (callIds : List Utf8String) : ℕ → List Value → List (ℕ × Utf8String)
  | _, [] => []
  | index, item :: items =>
      let typeTag := (textField item (constant "type")).getD (constant "")
      if typeTag ∈ outputItemTypes ∧ isRetrieveOutput callIds item = false then
        (index, typeTag) :: outputCandidates callIds (index + 1) items
      else outputCandidates callIds (index + 1) items

/-! ## The plans -/

/-- An optional list of borrowed parts. -/
def optionalElements : Option Located → Option (Option (List Slice))
  | some located =>
      if located.isNull then some none else located.rawElements.map some
  | none => some none

structure ResponsesBodyView where
  input : Option (List Slice)
  messages : Option (List Slice)

def ResponsesBodyView.fromStr (slice : Slice) : Option ResponsesBodyView := do
  match ← slice.record [constant "input", constant "messages"] with
  | [input, messages] =>
      return ⟨← optionalElements input, ← optionalElements messages⟩
  | _ => none

def ResponsesBodyView.items (view : ResponsesBodyView) : Option (List Slice) :=
  view.input.or view.messages

structure OutputItemView where
  output : Option Slice

def OutputItemView.fromStr (slice : Slice) : Option OutputItemView := do
  match ← slice.record [constant "output"] with
  | [output] => return ⟨optionalRaw output⟩
  | _ => none

structure ResponsesPlanSlot where
  blockIndex : Option ℕ
  blockType : Utf8String
  contentText : Utf8String
  contentByteRange : ℕ × ℕ
  isOutputItem : Bool
  deriving DecidableEq

/-- The raw item at `itemIndex` and its offset in the body. -/
def locateItem (bodyRaw : Bytes) (itemIndex : ℕ) : Except PlanError (Slice × ℕ) := do
  let bodyText ← (fromUtf8 bodyRaw).mapError fun _ => PlanError.parseFailed
  let bodyStr : Slice := ⟨0, bodyText.bytes⟩
  let body ← okOr .parseFailed (ResponsesBodyView.fromStr bodyStr)
  let items ← okOr .parseFailed body.items
  let itemRaw ← okOr .targetOutOfBounds items[itemIndex]?
  let itemOffset ← bytesOffsetOf bodyStr itemRaw
  return (itemRaw, itemOffset)

def planOutputItem (itemRaw : Slice) (itemOffset : ℕ) (kindTag : Utf8String) :
    Except PlanError (Option ResponsesPlanSlot) := do
  let view ← okOr .parseFailed (OutputItemView.fromStr itemRaw)
  match view.output with
  | none => return none
  | some outputRaw =>
      let outputOffset ← bytesOffsetOf itemRaw outputRaw
      let start := itemOffset + outputOffset
      if !startsWithQuote outputRaw then return none
      let unescaped ← okOr .parseFailed outputRaw.text
      return some ⟨none, kindTag, unescaped, (start, start + outputRaw.bytes.length), true⟩

/-- The first text part of a message item. -/
def planMessageParts (contentRaw : Slice) (contentOffset : ℕ) :
    ℕ → List Slice → Except PlanError (Option ResponsesPlanSlot)
  | _, [] => .ok none
  | partIndex, partRaw :: parts => do
      let header ← okOr .parseFailed (BlockHeader.fromStr partRaw)
      let blockType := header.type.getD (constant "unknown")
      if blockType ∉ [constant "input_text", constant "output_text", constant "text"] then
        planMessageParts contentRaw contentOffset (partIndex + 1) parts
      else
        let view ← okOr .parseFailed (TextHeader.fromStr partRaw)
        match view.text with
        | none => planMessageParts contentRaw contentOffset (partIndex + 1) parts
        | some textRaw =>
            let partOffset ← bytesOffsetOf contentRaw partRaw
            let textOffset ← bytesOffsetOf partRaw textRaw
            if !startsWithQuote textRaw then
              planMessageParts contentRaw contentOffset (partIndex + 1) parts
            else
              let unescaped ← okOr .parseFailed textRaw.text
              let start := contentOffset + partOffset + textOffset
              return some ⟨some partIndex, constant "message_" ++ blockType, unescaped,
                (start, start + textRaw.bytes.length), false⟩

def planMessageItem (itemRaw : Slice) (itemOffset : ℕ) :
    Except PlanError (Option ResponsesPlanSlot) := do
  let view ← okOr .parseFailed (MessageView.fromStr itemRaw)
  match view.content with
  | none => return none
  | some contentRaw =>
      let contentOffset ← bytesOffsetOf itemRaw contentRaw
      let start := itemOffset + contentOffset
      if startsWithQuote contentRaw then
        let unescaped ← okOr .parseFailed contentRaw.text
        return some ⟨none, constant "message_string", unescaped,
          (start, start + contentRaw.bytes.length), false⟩
      else
        let parts ← okOr .parseFailed contentRaw.rawElements
        planMessageParts contentRaw start 0 parts

def planResponsesItem (bodyRaw : Bytes) (itemIndex : ℕ) (kindTag : Utf8String) :
    Except PlanError (Option ResponsesPlanSlot) := do
  let (itemRaw, itemOffset) ← locateItem bodyRaw itemIndex
  if kindTag ∈ outputItemTypes then planOutputItem itemRaw itemOffset kindTag
  else if kindTag = constant "message" then planMessageItem itemRaw itemOffset
  else return none

/-! ## The dispatcher -/

/-- The slot of one candidate.  A plan that fails is skipped. -/
def responsesSlot (bodyRaw : Bytes) (candidate : ℕ × Utf8String) :
    Option (ℕ × ResponsesPlanSlot) :=
  match planResponsesItem bodyRaw candidate.1 candidate.2 with
  | .ok (some slot) => some (candidate.1, slot)
  | .ok none => none
  | .error _ => none

/-- A planned slot as a block of its item. -/
def ResponsesPlanSlot.block (itemIndex : ℕ) (slot : ResponsesPlanSlot) : BlockSlot :=
  ⟨slot.contentText, slot.contentByteRange, itemIndex, slot.blockIndex, slot.blockType⟩

variable (backend : Backend) (model : Utf8String)

/-- One slot.  Output items have a floor of their own in front of the thresholds. -/
def dispatchResponsesSlot (slot : ℕ × ResponsesPlanSlot) (progress : Progress Unit) :
    BlockOutcome × Progress Unit :=
  let block := slot.2.block slot.1
  let length := slot.2.contentText.bytes.length
  if slot.2.isOutputItem ∧ length < responsesOutputMinBytes then
    (block.outcome (.belowByteThreshold (constant "output_item") length
      responsesOutputMinBytes), progress)
  else
    compressOneBlock backend model none block
      (backend.detectContentType slot.2.contentText) progress

def compressOpenAiResponsesLiveZone (bodyRaw : Bytes) (_authMode : AuthMode) :
    Except LiveZoneError LiveZoneOutcome :=
  match valueFromSlice bodyRaw with
  | none => .error .bodyNotJson
  | some parsed =>
      match ((parsed.get (constant "input")).or
          (parsed.get (constant "messages"))).bind Value.asArray with
      | none => .error .noMessagesArray
      | some items =>
          if items = [] then .ok (.noChange .empty)
          else
            -- The source keeps a latest message among the candidates, but never sets it.
            let latestMessage : Option ℕ := none
            let candidates := outputCandidates (legroomRetrieveCallIds items) 0 items ++
              latestMessage.toList.map fun index => (index, constant "message")
            let manifest : CompressionManifest := ⟨items.length, 0, latestMessage, []⟩
            if candidates = [] then .ok (.noChange manifest)
            else
              let allSlots := candidates.filterMap (responsesSlot bodyRaw)
              if allSlots = [] then .ok (.noChange manifest)
              else
                let ran := runBlocks (dispatchResponsesSlot backend model) allSlots ⟨[], ()⟩
                .ok (finishBody bodyRaw { manifest with blockOutcomes := ran.1 }
                  ran.2.replacements)

/-!
## What the OpenAI Responses dispatcher changes
-/

/-- The field that holds the items of a request. -/
def itemsField (request : Value) : Utf8String :=
  if (request.get (constant "input")).isSome then constant "input"
  else constant "messages"

theorem get_itemsField (request : Value) :
    request.get (itemsField request) =
      (request.get (constant "input")).or (request.get (constant "messages")) := by
  cases hinput : request.get (constant "input") with
  | none => simp [itemsField, hinput]
  | some input => simp [itemsField, hinput]

/-- An item of a request that the dispatcher may rewrite: an output item with a
string payload that does not answer a retrieval call. -/
structure OutputItem (items : List Value) (index : ℕ) : Prop where
  exists_item : ∃ item typeTag text, items[index]? = some item ∧
    textField item (constant "type") = some typeTag ∧ typeTag ∈ outputItemTypes ∧
    item.get (constant "output") = some (.string text) ∧
    isRetrieveOutput (legroomRetrieveCallIds items) item = false

def ResponsesAllowed (list : Utf8String) (items : List Value) (path : Path) : Prop :=
  ∃ index, OutputItem items index ∧
    path = [.key list, .index index, .key (constant "output")]

abbrev outputHome (list : Utf8String) : BlockOutcome → Path :=
  BlockOutcome.home list (constant "output")

/-! ## The plans -/

theorem outputCandidates_spec (callIds : List Utf8String) (start : ℕ)
    (items : List Value) :
    ((outputCandidates callIds start items).Pairwise fun left right => left.1 ≠ right.1) ∧
      ∀ candidate ∈ outputCandidates callIds start items, start ≤ candidate.1 ∧
        candidate.2 ∈ outputItemTypes ∧ ∃ item,
          items[candidate.1 - start]? = some item ∧
          textField item (constant "type") = some candidate.2 ∧
          isRetrieveOutput callIds item = false := by
  induction items generalizing start with
  | nil => exact ⟨.nil, fun candidate hcandidate => absurd hcandidate List.not_mem_nil⟩
  | cons item items ih =>
      obtain ⟨hpairwise, hlater⟩ := ih (start + 1)
      have hrest : ∀ candidate ∈ outputCandidates callIds (start + 1) items,
          start < candidate.1 ∧ candidate.2 ∈ outputItemTypes ∧ ∃ later,
            (item :: items)[candidate.1 - start]? = some later ∧
            textField later (constant "type") = some candidate.2 ∧
            isRetrieveOutput callIds later = false := by
        intro candidate hcandidate
        obtain ⟨hstart, htype, later, hget, hfields⟩ := hlater candidate hcandidate
        refine ⟨hstart, htype, later, ?_, hfields⟩
        rw [show candidate.1 - start = candidate.1 - (start + 1) + 1 by omega,
          List.getElem?_cons_succ]
        exact hget
      rw [outputCandidates]
      split_ifs with htaken
      · refine ⟨.cons (fun candidate hcandidate => ?_) hpairwise,
          fun candidate hcandidate => ?_⟩
        · exact Nat.ne_of_lt (hrest candidate hcandidate).1
        · rcases List.mem_cons.mp hcandidate with rfl | hcandidate
          · refine ⟨le_rfl, htaken.1, item, ?_, ?_, htaken.2⟩
            · rw [Nat.sub_self, List.getElem?_cons_zero]
            · cases htype : textField item (constant "type") with
              | none =>
                  rw [htype] at htaken
                  exact absurd htaken.1 (by decide)
              | some type => rfl
          · obtain ⟨hstart, hcandidateRest⟩ := hrest candidate hcandidate
            exact ⟨hstart.le, hcandidateRest⟩
      · refine ⟨hpairwise, fun candidate hcandidate => ?_⟩
        obtain ⟨hstart, hcandidateRest⟩ := hrest candidate hcandidate
        exact ⟨hstart.le, hcandidateRest⟩

theorem slices_of_optionalElements {list : Located} {slices : List Slice}
    (helements : optionalElements (some list) = some (some slices)) :
    slices = list.elements.map Located.slice := by
  rw [optionalElements] at helements
  split_ifs at helements
  · cases helements
  · obtain ⟨found, hfound, heq⟩ := Option.map_eq_some_iff.mp helements
    cases heq
    exact elements_of_rawElements hfound

variable {document : Document} {fields : List (Utf8String × Value)} {items : List Value}

theorem ResponsesBodyView.spec (hdenote : document.root.value.denote = some (.object fields))
    (hitems : (((Value.object fields).get (constant "input")).or
      ((Value.object fields).get (constant "messages"))).bind Value.asArray = some items)
    {view : ResponsesBodyView} (hview : ResponsesBodyView.fromStr ⟨0, document.render⟩ = some view)
    {slices : List Slice} (hslices : view.items = some slices) :
    ∃ list, Reaches document.root [.key (itemsField (.object fields))] list ∧
      list.value.denote = some (.array items) ∧
      slices = list.elements.map Located.slice := by
  obtain ⟨parts, hparts, hview⟩ := Option.bind_eq_some_iff.mp hview
  rw [Slice.record, document.root_slice, Option.bind_some] at hparts
  obtain ⟨input, messages, hinput, hmessages, rfl⟩ := Located.record_two hdenote hparts
  obtain ⟨inputSlices, hinputSlices, hview⟩ := Option.bind_eq_some_iff.mp hview
  obtain ⟨messageSlices, hmessageSlices, hview⟩ := Option.bind_eq_some_iff.mp hview
  cases hview
  have hinputGet := Located.get_of_field hdenote hinput
  have hmessagesGet := Located.get_of_field hdenote hmessages
  cases input with
  | some list =>
      obtain ⟨value, hvalue, hlist⟩ := Option.map_eq_some_iff.mp hinputGet.symm
      replace hlist : list.value.denote = some value := hlist.symm
      rw [hvalue, Option.some_or, Option.bind_some] at hitems
      cases Value.eq_array_of_asArray hitems
      cases inputSlices with
      | none =>
          rw [optionalElements] at hinputSlices
          split_ifs at hinputSlices with hnull
          · rw [Located.denote_of_isNull hnull] at hlist
            cases hlist
          · simp at hinputSlices
      | some found =>
          cases hslices
          refine ⟨list, ?_, hlist, slices_of_optionalElements hinputSlices⟩
          rw [itemsField, hvalue]
          exact Located.reaches_of_field hinput
  | none =>
      have hnone : (Value.object fields).get (constant "input") = none := by
        cases hget : (Value.object fields).get (constant "input") with
        | none => rfl
        | some value =>
            rw [hget] at hinputGet
            cases hinputGet
      cases hinputSlices
      rw [hnone, Option.none_or] at hitems
      cases messages with
      | none =>
          cases hmessageSlices
          cases hslices
      | some list =>
          obtain ⟨value, hvalue, hlist⟩ := Option.map_eq_some_iff.mp hmessagesGet.symm
          replace hlist : list.value.denote = some value := hlist.symm
          rw [hvalue, Option.bind_some] at hitems
          cases Value.eq_array_of_asArray hitems
          have hsome : messageSlices = some slices := hslices
          rw [hsome] at hmessageSlices
          refine ⟨list, ?_, hlist, slices_of_optionalElements hmessageSlices⟩
          rw [itemsField, hnone]
          exact Located.reaches_of_field hmessages

theorem locateItem_spec (hdenote : document.root.value.denote = some (.object fields))
    (hitems : (((Value.object fields).get (constant "input")).or
      ((Value.object fields).get (constant "messages"))).bind Value.asArray = some items)
    {index : ℕ} {itemRaw : Slice} {offset : ℕ}
    (hlocate : locateItem document.render index = .ok (itemRaw, offset)) :
    ∃ item value, itemRaw = item.slice ∧ offset = item.start ∧
      Reaches document.root [.key (itemsField (.object fields)), .index index] item ∧
      items[index]? = some value ∧ item.value.denote = some value := by
  obtain ⟨bodyText, htext, hlocate⟩ := ok_of_bind hlocate
  rw [bytes_of_mapError htext] at hlocate
  obtain ⟨body, hbody, hlocate⟩ := ok_of_bind hlocate
  rw [okOr_eq_ok] at hbody
  obtain ⟨slices, hslices, hlocate⟩ := ok_of_bind hlocate
  rw [okOr_eq_ok] at hslices
  obtain ⟨list, hlist, hlistDenote, rfl⟩ :=
    ResponsesBodyView.spec hdenote hitems hbody hslices
  obtain ⟨raw, hraw, hlocate⟩ := ok_of_bind hlocate
  rw [okOr_eq_ok, List.getElem?_map, Option.map_eq_some_iff] at hraw
  obtain ⟨item, hget, rfl⟩ := hraw
  obtain ⟨itemOffset, hoffset, hlocate⟩ := ok_of_bind hlocate
  cases hlocate
  obtain ⟨value, hvalue, hitem⟩ := Located.denote_getElem hlistDenote hget
  have hstart := start_of_bytesOffsetOf hoffset
  refine ⟨item, value, rfl, ?_, hlist.trans (.index hget (.here item)), hvalue, hitem⟩
  rwa [Nat.zero_add] at hstart

/-- The slot of an output item is its string payload. -/
theorem planOutputItem_spec {item : Located} (hdenote : item.value.denote = some (.object fields))
    {kindTag : Utf8String} {slot : ResponsesPlanSlot}
    (hplan : planOutputItem item.slice item.start kindTag = .ok (some slot)) :
    slot.blockIndex = none ∧ slot.isOutputItem = true ∧
      ∃ lit, Reaches item [.key (constant "output")] ⟨slot.contentByteRange.1, .string lit⟩ ∧
        slot.contentByteRange.2 = slot.contentByteRange.1 + lit.bytes.length ∧
        lit.text = some slot.contentText := by
  obtain ⟨view, hview, hplan⟩ := ok_of_bind hplan
  rw [okOr_eq_ok] at hview
  obtain ⟨parts, hparts, hview⟩ := Option.bind_eq_some_iff.mp hview
  rw [record_slice] at hparts
  obtain ⟨found, hfound, rfl⟩ := Located.record_one hdenote hparts
  cases hview
  cases hraw : optionalRaw found with
  | none =>
      simp only [hraw] at hplan
      cases hplan
  | some outputRaw =>
      simp only [hraw] at hplan
      obtain ⟨output, rfl, hreaches⟩ := reaches_of_optionalRaw hfound hraw
      obtain ⟨outputOffset, hoffset, hplan⟩ := ok_of_bind hplan
      split_ifs at hplan with hquote
      · cases hplan
      obtain ⟨unescaped, hunescaped, hplan⟩ := ok_of_bind hplan
      rw [okOr_eq_ok] at hunescaped
      cases hplan
      obtain ⟨lit, hlit, hbytes, htext⟩ :=
        literal_of_startsWithQuote (by simpa using hquote) hunescaped
      rw [hlit] at hreaches
      refine ⟨rfl, rfl, lit, ?_, by rw [hbytes], htext⟩
      have hstart : item.start + outputOffset = output.start :=
        start_of_bytesOffsetOf hoffset
      rwa [hstart]

/-! ## The slots -/

/-- The slot of a candidate stands at the payload of its output item. -/
theorem responsesSlot_spec (hdenote : document.root.value.denote = some (.object fields))
    (hitems : (((Value.object fields).get (constant "input")).or
      ((Value.object fields).get (constant "messages"))).bind Value.asArray = some items)
    {candidate : ℕ × Utf8String}
    (hcandidate : candidate ∈ outputCandidates (legroomRetrieveCallIds items) 0 items)
    {slot : ℕ × ResponsesPlanSlot} (hslot : responsesSlot document.render candidate = some slot) :
    slot.1 = candidate.1 ∧ slot.2.isOutputItem = true ∧
      ∃ path, (slot.2.block slot.1).StandsAt document.root path ∧
        (slot.2.block slot.1).home (itemsField (.object fields)) (constant "output") = path ∧
        ResponsesAllowed (itemsField (.object fields)) items path := by
  obtain ⟨_, htypes, itemValue, hitem, htype, hkept⟩ :=
    (outputCandidates_spec (legroomRetrieveCallIds items) 0 items).2 candidate hcandidate
  rw [Nat.sub_zero] at hitem
  rw [responsesSlot] at hslot
  cases hplan : planResponsesItem document.render candidate.1 candidate.2 with
  | error error =>
      rw [hplan] at hslot
      cases hslot
  | ok planned =>
      cases planned with
      | none =>
          rw [hplan] at hslot
          cases hslot
      | some planned =>
          rw [hplan] at hslot
          cases hslot
          obtain ⟨⟨itemRaw, offset⟩, hlocate, hplan⟩ := ok_of_bind hplan
          obtain ⟨item, value, rfl, rfl, hreaches, hvalue, hdenoteItem⟩ :=
            locateItem_spec hdenote hitems hlocate
          rw [hitem] at hvalue
          cases hvalue
          have hget : ∃ field, itemValue.get (constant "type") = some field := by
            obtain ⟨field, hfield, _⟩ := Option.bind_eq_some_iff.mp htype
            exact ⟨field, hfield⟩
          obtain ⟨field, hfield⟩ := hget
          obtain ⟨itemFields, rfl⟩ := object_of_get hfield
          simp only at hplan
          rw [if_pos htypes] at hplan
          obtain ⟨hindex, houtput, lit, hinner, hstop, htext⟩ :=
            planOutputItem_spec hdenoteItem hplan
          have hwhole := hreaches.trans hinner
          obtain ⟨payload, hpayload, hlit⟩ := hinner.denote hdenoteItem
          obtain ⟨text, _, rfl⟩ := Option.map_eq_some_iff.mp hlit
          simp [Value.at?] at hpayload
          refine ⟨rfl, houtput, _, ⟨lit, hwhole, hstop, htext⟩, ?_,
            candidate.1, ⟨_, candidate.2, text, hitem, htype, htypes, hpayload, hkept⟩, rfl⟩
          rw [BlockSlot.home, ResponsesPlanSlot.block, hindex]
          rfl

variable (backend : Backend) (model : Utf8String)

/-- What is decided for a slot. -/
def decideResponsesSlot (slot : ℕ × ResponsesPlanSlot) : Decision :=
  if slot.2.isOutputItem ∧ slot.2.contentText.bytes.length < responsesOutputMinBytes then
    ((slot.2.block slot.1).outcome (.belowByteThreshold (constant "output_item")
      slot.2.contentText.bytes.length responsesOutputMinBytes), none)
  else
    decideSlot backend model (none : Option (CcrStore Unit)) (slot.2.block slot.1)

variable (slot : ℕ × ResponsesPlanSlot)

theorem dispatchResponsesSlot_eq (progress : Progress Unit) :
    dispatchResponsesSlot backend model slot progress =
      ((decideResponsesSlot backend model slot).1,
        progress.recordAll backend (none : Option (CcrStore Unit))
          (decideResponsesSlot backend model slot).2.toList) := by
  rw [dispatchResponsesSlot, decideResponsesSlot]
  split_ifs
  · simp [Progress.recordAll]
  · exact compressOneBlock_eq backend model none _ _ progress

theorem isCompressed_decideResponsesSlot :
    (decideResponsesSlot backend model slot).1.action.isCompressed =
      (decideResponsesSlot backend model slot).2.isSome := by
  rw [decideResponsesSlot]
  split_ifs
  · rfl
  · exact isCompressed_decideSlot backend model none _

theorem home_decideResponsesSlot (list : Utf8String) (slot : ℕ × ResponsesPlanSlot) :
    outputHome list (decideResponsesSlot backend model slot).1 =
      (slot.2.block slot.1).home list (constant "output") := by
  rw [decideResponsesSlot]
  split_ifs <;> rfl

/-- The slots of the candidates are settled. -/
theorem settled_responses (hdenote : document.root.value.denote = some (.object fields))
    (hitems : (((Value.object fields).get (constant "input")).or
      ((Value.object fields).get (constant "messages"))).bind Value.asArray = some items) :
    Settled backend model (none : Option (CcrStore Unit)) document.root
      (outputHome (itemsField (.object fields)))
      (ResponsesAllowed (itemsField (.object fields)) items)
      (((outputCandidates (legroomRetrieveCallIds items) 0 items).filterMap
        (responsesSlot document.render)).map (decideResponsesSlot backend model)) where
  reported := by
    intro decision hdecision
    obtain ⟨slot, _, rfl⟩ := List.mem_map.mp hdecision
    exact isCompressed_decideResponsesSlot backend model slot
  swapped := by
    intro decision hdecision swap hswap
    obtain ⟨slot, hslot, rfl⟩ := List.mem_map.mp hdecision
    obtain ⟨candidate, hcandidate, hsome⟩ := List.mem_filterMap.mp hslot
    obtain ⟨_, _, path, hstands, hhome, hallowed⟩ :=
      responsesSlot_spec hdenote hitems hcandidate hsome
    rw [home_decideResponsesSlot]
    rw [decideResponsesSlot] at hswap ⊢
    split_ifs at hswap ⊢
    · cases hswap
    · obtain ⟨hsame, _⟩ := slot_of_decideSlot backend model none hswap
      rw [hsame]
      exact ⟨rfl, path, hstands, hhome ▸ List.prefix_rfl, hallowed⟩
  apart := by
    rw [List.pairwise_map, List.pairwise_filterMap]
    refine (outputCandidates_spec _ 0 items).1.imp_of_mem ?_
    intro left right hleft hright hne leftSlot hleftSlot rightSlot hrightSlot
    obtain ⟨hleftIndex, _⟩ := responsesSlot_spec hdenote hitems hleft hleftSlot
    obtain ⟨hrightIndex, _⟩ := responsesSlot_spec hdenote hitems hright hrightSlot
    rw [home_decideResponsesSlot, home_decideResponsesSlot]
    apply home_apart
    simp only [ResponsesPlanSlot.block]
    rwa [hleftIndex, hrightIndex]

/-- Every run on a body with items is a list of settled decisions. -/
theorem compressOpenAiResponses_settled {value : Value}
    (hvalue : valueFromSlice document.render = some value)
    (hitems : ((value.get (constant "input")).or
      (value.get (constant "messages"))).bind Value.asArray = some items)
    (authMode : AuthMode) :
    ∃ decisions manifest,
      SettledRun backend model (none : Option (CcrStore Unit))
        (outputHome (itemsField value)) (ResponsesAllowed (itemsField value) items) document
        () decisions manifest
        (compressOpenAiResponsesLiveZone backend model document.render authMode, ()) := by
  have hdenote : document.root.value.denote = some value := by
    rw [valueFromSlice, parseDocument_eq_some_iff.mpr rfl, Option.bind_some] at hvalue
    split_ifs at hvalue
    exact hvalue
  have hobject : ∃ fields, value = .object fields := by
    cases value with
    | object fields => exact ⟨fields, rfl⟩
    | _ => cases hitems
  obtain ⟨fields, rfl⟩ := hobject
  rw [compressOpenAiResponsesLiveZone]
  simp only [hvalue, hitems, Option.toList_none, List.map_nil, List.append_nil]
  split_ifs with hempty hcandidates hslots
  · exact ⟨_, _, settledRun_of_kept (by simp [CompressionManifest.empty]) .nil⟩
  · exact ⟨_, _, settledRun_of_kept (by simp) .nil⟩
  · exact ⟨_, _, settledRun_of_kept (by simp) .nil⟩
  · exact ⟨_, _, settledRun_of_blocks (dispatchResponsesSlot_eq backend model)
      (settled_responses backend model hdenote hitems) rfl⟩

end Legroom.LiveZone
