import Legroom.LiveZone.LatestMessage
import Legroom.LiveZone.Surgery

/-!
# The OpenAI chat dispatcher

The live zone of a chat request is the latest tool message and the latest user
message.  The slots of both are collected in this order, which need not be the
order of the text.
-/

namespace Legroom.LiveZone

open Utf8 Json

/-! ## The plans -/

structure OpenAiPlanSlot where
  blockIndex : Option ℕ
  blockType : Utf8String
  contentText : Utf8String
  contentByteRange : ℕ × ℕ
  deriving DecidableEq

def planOpenAiToolMessage (bodyRaw : Bytes) (messageIndex : ℕ) :
    Except PlanError OpenAiPlanSlot := do
  match ← locateContent bodyRaw messageIndex with
  | none => .error .parseFailed
  | some (contentRaw, contentOffset) =>
      if !startsWithQuote contentRaw then .error .parseFailed
      else
        let unescaped ← okOr .parseFailed contentRaw.text
        return ⟨none, constant "tool_content", unescaped,
          (contentOffset, contentOffset + contentRaw.bytes.length)⟩

/-- One pass of the loop over the parts of a user message. -/
def planOpenAiPart (contentRaw : Slice) (contentOffset partIndex : ℕ) (partRaw : Slice) :
    Except PlanError (Option OpenAiPlanSlot) := do
  let header ← okOr .parseFailed (BlockHeader.fromStr partRaw)
  let blockType := header.type.getD (constant "unknown")
  if blockType ≠ constant "text" then return none
  let view ← okOr .parseFailed (TextHeader.fromStr partRaw)
  match view.text with
  | none => return none
  | some textRaw =>
      let partOffset ← bytesOffsetOf contentRaw partRaw
      let textOffset ← bytesOffsetOf partRaw textRaw
      if !startsWithQuote textRaw then return none
      let unescaped ← okOr .parseFailed textRaw.text
      let start := contentOffset + partOffset + textOffset
      return some ⟨some partIndex, constant "user_text", unescaped,
        (start, start + textRaw.bytes.length)⟩

def planOpenAiParts (contentRaw : Slice) (contentOffset : ℕ) :
    ℕ → List Slice → Except PlanError (List OpenAiPlanSlot)
  | _, [] => .ok []
  | partIndex, partRaw :: parts => do
      let slot ← planOpenAiPart contentRaw contentOffset partIndex partRaw
      let slots ← planOpenAiParts contentRaw contentOffset (partIndex + 1) parts
      return slot.toList ++ slots

def planOpenAiUserMessage (bodyRaw : Bytes) (messageIndex : ℕ) :
    Except PlanError (List OpenAiPlanSlot) := do
  match ← locateContent bodyRaw messageIndex with
  | none => return []
  | some (contentRaw, contentOffset) =>
      if startsWithQuote contentRaw then
        let unescaped ← okOr .parseFailed contentRaw.text
        return [⟨none, constant "user_string", unescaped,
          (contentOffset, contentOffset + contentRaw.bytes.length)⟩]
      else
        let parts ← okOr .parseFailed contentRaw.rawElements
        planOpenAiParts contentRaw contentOffset 0 parts

/-! ## The dispatcher -/

/-- A planned slot as a block of its message. -/
def OpenAiPlanSlot.block (messageIndex : ℕ) (slot : OpenAiPlanSlot) : BlockSlot :=
  ⟨slot.contentText, slot.contentByteRange, messageIndex, slot.blockIndex, slot.blockType⟩

/-- The slots of the latest tool message.  A plan that fails is skipped. -/
def toolSlots (bodyRaw : Bytes) : Option ℕ → List BlockSlot
  | none => []
  | some index =>
      match planOpenAiToolMessage bodyRaw index with
      | .ok slot => [slot.block index]
      | .error _ => []

def userSlots (bodyRaw : Bytes) : Option ℕ → List BlockSlot
  | none => []
  | some index =>
      match planOpenAiUserMessage bodyRaw index with
      | .ok slots => slots.map (OpenAiPlanSlot.block index)
      | .error _ => []

variable (backend : Backend) (model : Utf8String)

/-- One slot, without a store. -/
def dispatchOpenAiSlot (slot : BlockSlot) (progress : Progress Unit) :
    BlockOutcome × Progress Unit :=
  compressOneBlock backend model none slot (backend.detectContentType slot.contentText)
    progress

def compressOpenAiChatLiveZone (bodyRaw : Bytes) (_authMode : AuthMode) :
    Except LiveZoneError LiveZoneOutcome :=
  match valueFromSlice bodyRaw with
  | none => .error .bodyNotJson
  | some parsed =>
      match (parsed.get (constant "messages")).bind Value.asArray with
      | none => .error .noMessagesArray
      | some messages =>
          if messages = [] then .ok (.noChange .empty)
          else
            let latestToolIndex := findLatestRoleIndex messages (constant "tool")
            let latestUserIndex := findLatestRoleIndex messages (constant "user")
            let manifest : CompressionManifest := ⟨messages.length, 0, latestUserIndex, []⟩
            if latestToolIndex = none ∧ latestUserIndex = none then .ok (.noChange manifest)
            else
              let allSlots :=
                toolSlots bodyRaw latestToolIndex ++ userSlots bodyRaw latestUserIndex
              if allSlots = [] then .ok (.noChange manifest)
              else
                let ran := runBlocks (dispatchOpenAiSlot backend model) allSlots ⟨[], ()⟩
                .ok (finishBody bodyRaw { manifest with blockOutcomes := ran.1 }
                  ran.2.replacements)

/-!
## What the OpenAI chat dispatcher changes
-/

/-- Where a user message has a text that may be compressed. -/
inductive UserText (message : Value) : Path → Prop
  | content (text : Utf8String)
      (hcontent : message.get (constant "content") = some (.string text)) :
      UserText message [.key (constant "content")]
  | part {parts : List Value} {position : ℕ} {part : Value}
      (hcontent : message.get (constant "content") = some (.array parts))
      (hpart : parts[position]? = some part)
      (htype : part.get (constant "type") = some (.string (constant "text"))) :
      UserText message
        [.key (constant "content"), .index position, .key (constant "text")]

/-- The paths of a chat request that the dispatcher may rewrite: the string content
of the latest tool message and the texts of the latest user message. -/
inductive ChatAllowed (messages : List Value) : Path → Prop
  | tool {target : ℕ} {message : Value} {text : Utf8String}
      (hlatest : Latest (constant "tool") messages 0 target)
      (hmessage : messages[target]? = some message)
      (hcontent : message.get (constant "content") = some (.string text)) :
      ChatAllowed messages
        [.key (constant "messages"), .index target, .key (constant "content")]
  | user {target : ℕ} {message : Value} {path : Path}
      (hlatest : Latest (constant "user") messages 0 target)
      (hmessage : messages[target]? = some message) (hpath : UserText message path) :
      ChatAllowed messages (.key (constant "messages") :: .index target :: path)

/-! ## The plans -/

variable {contentRaw : Slice} {contentOffset partIndex : ℕ} {slot : OpenAiPlanSlot}

theorem planOpenAiPart_index {partRaw : Slice}
    (hplan : planOpenAiPart contentRaw contentOffset partIndex partRaw = .ok (some slot)) :
    slot.blockIndex = some partIndex := by
  obtain ⟨header, _, hplan⟩ := ok_of_bind hplan
  simp only at hplan
  split_ifs at hplan
  · cases hplan
  obtain ⟨view, _, hplan⟩ := ok_of_bind hplan
  cases hfield : view.text with
  | none =>
      rw [hfield] at hplan
      cases hplan
  | some field =>
      rw [hfield] at hplan
      obtain ⟨partOffset, _, hplan⟩ := ok_of_bind hplan
      obtain ⟨textOffset, _, hplan⟩ := ok_of_bind hplan
      split_ifs at hplan
      · cases hplan
      obtain ⟨unescaped, _, hplan⟩ := ok_of_bind hplan
      cases hplan
      rfl

/-- The text that a part plans is that of a text part, if it is long. -/
theorem planOpenAiPart_spec {part : Located} {value : Value}
    (hdenote : part.value.denote = some value)
    (hplan : planOpenAiPart contentRaw contentRaw.start partIndex part.slice = .ok (some slot))
    (hlong : (constant "text").bytes.length < slot.contentText.bytes.length) :
    value.get (constant "type") = some (.string (constant "text")) ∧
      ∃ lit, Reaches part [.key (constant "text")]
          ⟨slot.contentByteRange.1, .string lit⟩ ∧
        slot.contentByteRange.2 = slot.contentByteRange.1 + lit.bytes.length ∧
        lit.text = some slot.contentText := by
  obtain ⟨header, hheader, hplan⟩ := ok_of_bind hplan
  rw [okOr_eq_ok] at hheader
  simp only at hplan
  split_ifs at hplan with htype
  · cases hplan
  obtain ⟨view, hview, hplan⟩ := ok_of_bind hplan
  rw [okOr_eq_ok] at hview
  cases hfield : view.text with
  | none =>
      rw [hfield] at hplan
      cases hplan
  | some field =>
      rw [hfield] at hplan
      obtain ⟨partOffset, hpart, hplan⟩ := ok_of_bind hplan
      obtain ⟨textOffset, htext, hplan⟩ := ok_of_bind hplan
      split_ifs at hplan with hquote
      · cases hplan
      obtain ⟨unescaped, hunescaped, hplan⟩ := ok_of_bind hplan
      rw [okOr_eq_ok] at hunescaped
      cases hplan
      have hwritten : header.type = some (constant "text") := by
        cases hsome : header.type with
        | none =>
            rw [hsome] at htype
            exact absurd (not_not.mp htype) (by decide)
        | some type =>
            rw [hsome] at htype
            exact congrArg some (not_not.mp htype)
      obtain ⟨inner, rfl, hinner⟩ :=
        TextHeader.text_spec hdenote hheader hwritten hview hfield
      obtain ⟨lit, hlit, hbytes, htextEq⟩ :=
        literal_of_startsWithQuote (by simpa using hquote) hunescaped
      rw [hlit] at hinner
      rcases hinner with hshort | ⟨hget, hreaches⟩
      · rw [text_of_denote hshort htextEq] at hlong
        exact absurd hlong (Nat.lt_irrefl _)
      · have hstart := start_of_bytesOffsetOf htext
        rw [← start_of_bytesOffsetOf hpart] at hstart
        refine ⟨hget, lit, ?_, by rw [hbytes], htextEq⟩
        simp only [Located.slice] at hstart ⊢
        rwa [hstart]

theorem planOpenAiParts_spec {start : ℕ} {parts : List Slice} {plan : List OpenAiPlanSlot}
    (hplan : planOpenAiParts contentRaw contentOffset start parts = .ok plan) :
    (plan.Pairwise fun left right => left.blockIndex ≠ right.blockIndex) ∧
      ∀ slot ∈ plan, ∃ index partRaw, slot.blockIndex = some index ∧ start ≤ index ∧
        parts[index - start]? = some partRaw ∧
        planOpenAiPart contentRaw contentOffset index partRaw = .ok (some slot) := by
  induction parts generalizing start plan with
  | nil =>
      cases hplan
      exact ⟨.nil, fun slot hslot => by cases hslot⟩
  | cons partRaw parts ih =>
      obtain ⟨first, hfirst, hplan⟩ := ok_of_bind hplan
      obtain ⟨slots, hslots, hplan⟩ := ok_of_bind hplan
      cases hplan
      obtain ⟨hpairwise, hlater⟩ := ih hslots
      have hrest : ∀ slot ∈ slots, ∃ index later, slot.blockIndex = some index ∧
          start < index ∧ (partRaw :: parts)[index - start]? = some later ∧
          planOpenAiPart contentRaw contentOffset index later = .ok (some slot) := by
        intro slot hslot
        obtain ⟨index, later, hindex, hstart, hget, hplanned⟩ := hlater slot hslot
        refine ⟨index, later, hindex, hstart, ?_, hplanned⟩
        rw [show index - start = index - (start + 1) + 1 by omega, List.getElem?_cons_succ]
        exact hget
      cases first with
      | none =>
          refine ⟨hpairwise, fun slot hslot => ?_⟩
          obtain ⟨index, later, hindex, hstart, hget⟩ := hrest slot hslot
          exact ⟨index, later, hindex, hstart.le, hget⟩
      | some first =>
          have hindex := planOpenAiPart_index hfirst
          refine ⟨.cons (fun slot hslot => ?_) hpairwise, fun slot hslot => ?_⟩
          · obtain ⟨index, _, hslotIndex, hstart, _⟩ := hrest slot hslot
            rw [hindex, hslotIndex]
            exact fun heq => Nat.ne_of_lt hstart (Option.some.inj heq)
          · rcases List.mem_cons.mp hslot with rfl | hslot
            · refine ⟨start, partRaw, hindex, le_rfl, ?_, hfirst⟩
              rw [Nat.sub_self, List.getElem?_cons_zero]
            · obtain ⟨index, later, hslotIndex, hstart, hget⟩ := hrest slot hslot
              exact ⟨index, later, hslotIndex, hstart.le, hget⟩

/-! ## The slots -/

section Slots

variable {document : Document} {fields : List (Utf8String × Value)} {messages : List Value}
  {target : ℕ} {message : List (Utf8String × Value)}
variable {index : Option ℕ}

/-- The slot of the tool message is its string content. -/
theorem toolSlots_spec (hdenote : document.root.value.denote = some (.object fields))
    (hmessages : (Value.object fields).get (constant "messages") = some (.array messages))
    (hlatest : ∀ target ∈ index, Latest (constant "tool") messages 0 target) :
    (∀ slot ∈ toolSlots document.render index,
      (messages[slot.messageIndex]?).any (isRole (constant "tool")) = true ∧
        ∃ path, slot.StandsAt document.root path ∧
          slot.home (constant "messages") (constant "content") <+: path ∧
          ChatAllowed messages path) ∧
      (toolSlots document.render index).Pairwise fun left right =>
        Apart (left.home (constant "messages") (constant "content"))
          (right.home (constant "messages") (constant "content")) := by
  cases index with
  | none => exact ⟨fun slot hslot => absurd hslot List.not_mem_nil, .nil⟩
  | some target =>
      have hlatest := hlatest target rfl
      obtain ⟨message, hmessage⟩ := object_of_isRole hlatest.role_eq
      cases hplan : planOpenAiToolMessage document.render target with
      | error error =>
          rw [toolSlots, hplan]
          exact ⟨fun slot hslot => absurd hslot List.not_mem_nil, .nil⟩
      | ok planned =>
          rw [toolSlots, hplan]
          refine ⟨fun slot hslot => ?_, List.pairwise_singleton _ _⟩
          rw [List.mem_singleton] at hslot
          subst hslot
          refine ⟨hlatest.role_eq, ?_⟩
          obtain ⟨located, hlocate, hplan⟩ := ok_of_bind hplan
          cases located with
          | none => cases hplan
          | some located =>
              obtain ⟨contentRaw, offset⟩ := located
              obtain ⟨content, rfl, rfl, hreaches⟩ :=
                locateContent_spec hdenote hmessages hmessage hlocate
              simp only at hplan
              split_ifs at hplan with hquote
              obtain ⟨unescaped, hunescaped, hplan⟩ := ok_of_bind hplan
              rw [okOr_eq_ok] at hunescaped
              cases hplan
              obtain ⟨lit, hlit, hbytes, htext⟩ :=
                literal_of_startsWithQuote (by simpa using hquote) hunescaped
              rw [hlit] at hreaches
              obtain ⟨value, hvalue, hcontent⟩ := hreaches.denote hdenote
              simp [Value.at?, hmessages, Value.asArray, hmessage] at hvalue
              obtain ⟨text, _, rfl⟩ := Option.map_eq_some_iff.mp hcontent
              exact ⟨_, ⟨lit, hreaches, by rw [hbytes]; rfl, htext⟩, List.prefix_rfl,
                .tool hlatest hmessage hvalue⟩

/-- The slots of the parts of a user message. -/
theorem parts_spec {content : Located} {values : List Value}
    (hlatest : Latest (constant "user") messages 0 target)
    (hmessage : messages[target]? = some (.object message))
    (hreaches : Reaches document.root
      [.key (constant "messages"), .index target, .key (constant "content")] content)
    (hcontent : (Value.object message).get (constant "content") = some (.array values))
    (hdenote : content.value.denote = some (.array values)) {plan : List OpenAiPlanSlot}
    (hplan : planOpenAiParts content.slice content.start 0
      (content.elements.map Located.slice) = .ok plan) :
    ∀ slot ∈ plan, 512 ≤ slot.contentText.bytes.length →
      ∃ path, (slot.block target).StandsAt document.root path ∧
        (slot.block target).home (constant "messages") (constant "content") <+: path ∧
        ChatAllowed messages path := by
  intro slot hslot hlength
  obtain ⟨index, partRaw, hindex, _, hget, hplanned⟩ :=
    (planOpenAiParts_spec hplan).2 slot hslot
  rw [Nat.sub_zero, List.getElem?_map, Option.map_eq_some_iff] at hget
  obtain ⟨part, hpart, rfl⟩ := hget
  obtain ⟨value, hvalue, hpartDenote⟩ := Located.denote_getElem hdenote hpart
  have hlong : (constant "text").bytes.length < slot.contentText.bytes.length :=
    Nat.lt_of_lt_of_le (by decide) hlength
  obtain ⟨htype, lit, hinner, hstop, htext⟩ :=
    planOpenAiPart_spec hpartDenote hplanned hlong
  refine ⟨_, ⟨lit, hreaches.trans (.index hpart hinner), hstop, htext⟩, ?_,
    .user hlatest hmessage (.part hcontent hvalue htype)⟩
  rw [BlockSlot.home, OpenAiPlanSlot.block, hindex]
  exact ⟨[.key (constant "text")], rfl⟩

/-- The slots of the user message are its texts. -/
theorem userSlots_spec (hdenote : document.root.value.denote = some (.object fields))
    (hmessages : (Value.object fields).get (constant "messages") = some (.array messages))
    (hlatest : ∀ target ∈ index, Latest (constant "user") messages 0 target) :
    (∀ slot ∈ userSlots document.render index,
      (messages[slot.messageIndex]?).any (isRole (constant "user")) = true ∧
        (512 ≤ slot.contentText.bytes.length →
          ∃ path, slot.StandsAt document.root path ∧
            slot.home (constant "messages") (constant "content") <+: path ∧
            ChatAllowed messages path)) ∧
      (userSlots document.render index).Pairwise fun left right =>
        Apart (left.home (constant "messages") (constant "content"))
          (right.home (constant "messages") (constant "content")) := by
  cases index with
  | none => exact ⟨fun slot hslot => absurd hslot List.not_mem_nil, .nil⟩
  | some target =>
      have hlatest := hlatest target rfl
      obtain ⟨message, hmessage⟩ := object_of_isRole hlatest.role_eq
      cases hplan : planOpenAiUserMessage document.render target with
      | error error =>
          rw [userSlots, hplan]
          exact ⟨fun slot hslot => absurd hslot List.not_mem_nil, .nil⟩
      | ok plan =>
          have hslots : userSlots document.render (some target) =
              plan.map (OpenAiPlanSlot.block target) := by rw [userSlots, hplan]
          rw [hslots]
          obtain ⟨located, hlocate, hplan⟩ := ok_of_bind hplan
          cases located with
          | none =>
              cases hplan
              exact ⟨fun slot hslot => absurd hslot List.not_mem_nil, .nil⟩
          | some located =>
              obtain ⟨contentRaw, offset⟩ := located
              obtain ⟨content, rfl, rfl, hreaches⟩ :=
                locateContent_spec hdenote hmessages hmessage hlocate
              obtain ⟨value, hvalue, hcontent⟩ := hreaches.denote hdenote
              simp [Value.at?, hmessages, Value.asArray, hmessage] at hvalue
              simp only at hplan
              split_ifs at hplan with hquote
              · obtain ⟨unescaped, hunescaped, hplan⟩ := ok_of_bind hplan
                rw [okOr_eq_ok] at hunescaped
                cases hplan
                obtain ⟨lit, hlit, hbytes, htext⟩ :=
                  literal_of_startsWithQuote hquote hunescaped
                rw [hlit] at hreaches hcontent
                obtain ⟨text, _, rfl⟩ := Option.map_eq_some_iff.mp hcontent
                refine ⟨fun slot hslot => ?_, List.pairwise_singleton _ _⟩
                rw [List.map_singleton, List.mem_singleton] at hslot
                subst hslot
                exact ⟨hlatest.role_eq, fun _ => ⟨_, ⟨lit, hreaches, by rw [hbytes]; rfl, htext⟩,
                  List.prefix_rfl, .user hlatest hmessage (.content text hvalue)⟩⟩
              · obtain ⟨parts, hparts, hplan⟩ := ok_of_bind hplan
                rw [okOr_eq_ok, rawElements_slice] at hparts
                obtain ⟨values, rfl⟩ := array_of_rawElements hparts hcontent
                rw [elements_of_rawElements hparts] at hplan
                refine ⟨fun slot hslot => ?_, ?_⟩
                · obtain ⟨planned, hplanned, rfl⟩ := List.mem_map.mp hslot
                  exact ⟨hlatest.role_eq, parts_spec hlatest hmessage hreaches hvalue hcontent hplan planned
                    hplanned⟩
                · obtain ⟨hpairwise, hindexed⟩ := planOpenAiParts_spec hplan
                  rw [List.pairwise_map]
                  refine hpairwise.imp_of_mem fun {left right} hleft hright hne => ?_
                  obtain ⟨_, _, hleftIndex, _⟩ := hindexed left hleft
                  obtain ⟨_, _, hrightIndex, _⟩ := hindexed right hright
                  rw [hleftIndex, hrightIndex] at hne
                  rw [BlockSlot.home, BlockSlot.home, OpenAiPlanSlot.block,
                    OpenAiPlanSlot.block, hleftIndex, hrightIndex]
                  exact apart_index fun heq => hne (congrArg some heq)

end Slots

/-! ## The whole run -/

variable (backend : Backend) (model : Utf8String)

theorem dispatchOpenAiSlot_eq (slot : BlockSlot) (progress : Progress Unit) :
    dispatchOpenAiSlot backend model slot progress =
      ((decideSlot backend model (none : Option (CcrStore Unit)) slot).1,
        progress.recordAll backend none
          (decideSlot backend model (none : Option (CcrStore Unit)) slot).2.toList) :=
  compressOneBlock_eq backend model none slot _ progress

/-- Every run on a body with messages is a list of settled decisions. -/
theorem compressOpenAiChat_settled {document : Document} {value : Value}
    (hvalue : valueFromSlice document.render = some value) {messages : List Value}
    (hmessages : value.get (constant "messages") = some (.array messages))
    (authMode : AuthMode) :
    ∃ decisions manifest,
      SettledRun backend model (none : Option (CcrStore Unit)) contentHome
        (ChatAllowed messages) document () decisions manifest
        (compressOpenAiChatLiveZone backend model document.render authMode, ()) := by
  have hdenote : document.root.value.denote = some value := by
    rw [valueFromSlice, parseDocument_eq_some_iff.mpr rfl, Option.bind_some] at hvalue
    split_ifs at hvalue
    exact hvalue
  obtain ⟨fields, rfl⟩ := object_of_get hmessages
  rw [compressOpenAiChatLiveZone]
  simp only [hvalue, hmessages, Option.bind_some, Value.asArray]
  split_ifs with hempty hroles hslots
  · exact ⟨_, _, settledRun_of_kept (by simp [CompressionManifest.empty]) .nil⟩
  · exact ⟨_, _, settledRun_of_kept (by simp) .nil⟩
  · exact ⟨_, _, settledRun_of_kept (by simp) .nil⟩
  · obtain ⟨htool, htoolApart⟩ := toolSlots_spec hdenote hmessages
      fun target htarget => latest_of_findLatestRoleIndex htarget
    obtain ⟨huser, huserApart⟩ := userSlots_spec hdenote hmessages
      fun target htarget => latest_of_findLatestRoleIndex htarget
    refine ⟨_, _, settledRun_of_blocks (dispatchOpenAiSlot_eq backend model)
      (settled_slots ?_ ?_) rfl⟩
    · intro slot hslot hlength
      rcases List.mem_append.mp hslot with hslot | hslot
      · exact (htool slot hslot).2
      · exact (huser slot hslot).2 hlength
    · refine List.pairwise_append.mpr ⟨htoolApart, huserApart, ?_⟩
      intro left hleft right hright
      apply home_apart
      intro heq
      have hleftRole := (htool left hleft).1
      rw [heq] at hleftRole
      have hrole := role_unique hleftRole (huser right hright).1
      exact absurd hrole (by decide)

end Legroom.LiveZone
