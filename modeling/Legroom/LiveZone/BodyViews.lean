import Legroom.Lib.Json.Views
import Legroom.LiveZone.Manifest

/-!
# The body as the planners see it

The planners find byte ranges by reading the body into views that borrow from
it: the address of a borrowed part, less the address of the text around it, is
its offset there.
-/

namespace Legroom.LiveZone

open Utf8 Json

inductive PlanError where
  | parseFailed
  | offsetMissing
  | targetOutOfBounds
  deriving DecidableEq, Repr

/-- `Option::ok_or`. -/
def okOr {A : Type} (error : PlanError) : Option A → Except PlanError A
  | some value => .ok value
  | none => .error error

/-- The offset of `child` in `parent`, unless it lies outside. -/
def bytesOffsetOf (parent child : Slice) : Except PlanError ℕ :=
  if child.start < parent.start ∨ child.stop > parent.stop then .error .offsetMissing
  else .ok (child.start - parent.start)

/-- `RawValue::from_string`: the text of the value, without the white space around
it. -/
def rawValueFromString (bytes : Bytes) : Option Bytes :=
  (parseDocument bytes).map fun document => document.value.render

def startsWithQuote (slice : Slice) : Bool := slice.bytes.head? = some quoteByte

structure BodyView where
  messages : List Slice

def BodyView.fromStr (slice : Slice) : Option BodyView := do
  match ← slice.record [constant "messages"] with
  | [some messages] => return ⟨← messages.rawElements⟩
  | _ => none

structure MessageView where
  content : Option Slice

def MessageView.fromStr (slice : Slice) : Option MessageView := do
  match ← slice.record [constant "content"] with
  | [content] => return ⟨optionalRaw content⟩
  | _ => none

/-- The raw message at `position` and its content with the offset in the body. -/
def locateContent (bodyRaw : Bytes) (position : ℕ) :
    Except PlanError (Option (Slice × ℕ)) := do
  let bodyText ← (fromUtf8 bodyRaw).mapError fun _ => PlanError.parseFailed
  let bodyStr : Slice := ⟨0, bodyText.bytes⟩
  let body ← okOr .parseFailed (BodyView.fromStr bodyStr)
  let messageRaw ← okOr .targetOutOfBounds body.messages[position]?
  let view ← okOr .parseFailed (MessageView.fromStr messageRaw)
  match view.content with
  | none => return none
  | some contentRaw =>
      let contentOffsetInMessage ← bytesOffsetOf messageRaw contentRaw
      let messageOffset ← bytesOffsetOf bodyStr messageRaw
      return some (contentRaw, messageOffset + contentOffsetInMessage)

structure BlockHeader where
  type : Option Utf8String
  content : Option Slice

def BlockHeader.fromStr (slice : Slice) : Option BlockHeader := do
  match ← slice.record [constant "type", constant "content"] with
  | [type, content] => return ⟨← optionalText type, optionalRaw content⟩
  | _ => none

structure TextHeader where
  text : Option Slice

def TextHeader.fromStr (slice : Slice) : Option TextHeader := do
  match ← slice.record [constant "text"] with
  | [text] => return ⟨optionalRaw text⟩
  | _ => none

/-- A block without a type may still be text: one with a string under `text`. -/
def blockHasStringTextField (block : Slice) : Bool :=
  match (TextHeader.fromStr block).bind TextHeader.text with
  | some text => startsWithQuote text
  | none => false

def hotZoneBlockTypes : List Utf8String :=
  [constant "tool_use", constant "thinking", constant "redacted_thinking",
    constant "compaction"]

/-! ## What the planners find -/

variable {value : Value}

theorem object_of_get {field : Value} {name : Utf8String} (hget : value.get name = some field) :
    ∃ fields, value = .object fields := by
  cases value with
  | object fields => exact ⟨fields, rfl⟩
  | _ => cases hget

theorem ok_of_bind {E : Type} {A B : Type} {first : Except E A} {next : A → Except E B}
    {result : B} (hok : (first >>= next) = .ok result) :
    ∃ value, first = .ok value ∧ next value = .ok result := by
  cases first with
  | ok value => exact ⟨value, rfl, hok⟩
  | error error => cases hok

@[simp]
theorem okOr_eq_ok {A : Type} {error : PlanError} {found : Option A} {value : A} :
    okOr error found = .ok value ↔ found = some value := by
  cases found <;> simp [okOr]

variable {text : Utf8String}

theorem bytes_of_mapError {bytes : Bytes} {error : PlanError}
    (htext : ((fromUtf8 bytes).mapError fun _ => error) = .ok text) : text.bytes = bytes := by
  cases hutf8 : fromUtf8 bytes with
  | error error =>
      rw [hutf8] at htext
      cases htext
  | ok found =>
      rw [hutf8] at htext
      cases htext
      exact fromUtf8_eq_ok_iff.mp hutf8

theorem start_of_bytesOffsetOf {parent child : Slice} {offset : ℕ}
    (hoffset : bytesOffsetOf parent child = .ok offset) :
    parent.start + offset = child.start := by
  rw [bytesOffsetOf] at hoffset
  split_ifs at hoffset with hinside
  cases hoffset
  exact Nat.add_sub_cancel' (Nat.not_lt.mp fun hlt => hinside (Or.inl hlt))

variable {located : Located}

theorem string_of_startsWithQuote (hquote : startsWithQuote located.slice = true) :
    ∃ lit, located.value = .string lit := by
  obtain ⟨start, value⟩ := located
  have hhead : value.render.head? = some quoteByte := of_decide_eq_true hquote
  cases value with
  | string lit => exact ⟨lit, rfl⟩
  | atom token =>
      have hbyte := token.all quoteByte (List.mem_of_mem_head? hhead)
      exact absurd hbyte (by decide)
  | emptyArray space => exact absurd (Option.some.inj hhead) (by decide)
  | array inner => exact absurd (Option.some.inj hhead) (by decide)
  | emptyObject space => exact absurd (Option.some.inj hhead) (by decide)
  | object inner => exact absurd (Option.some.inj hhead) (by decide)

@[simp]
theorem record_slice (located : Located) (names : List Utf8String) :
    located.slice.record names = located.record names := by
  rw [Slice.record, located.root_slice, Option.bind_some]

@[simp]
theorem text_slice (located : Located) : located.slice.text = located.text := by
  rw [Slice.text, located.root_slice, Option.bind_some]

/-- A planned text is that of a literal. -/
theorem literal_of_startsWithQuote {part : Located} (hquote : startsWithQuote part.slice = true)
    (htext : part.slice.text = some text) :
    ∃ lit, part = ⟨part.start, .string lit⟩ ∧ part.slice.bytes = lit.bytes ∧
      lit.text = some text := by
  obtain ⟨start, value⟩ := part
  obtain ⟨lit, hvalue⟩ := string_of_startsWithQuote hquote
  cases hvalue
  rw [text_slice] at htext
  exact ⟨lit, rfl, rfl, htext⟩

theorem text_of_denote {lit : StringLit} {word : Utf8String}
    (hdenote : (Tree.string lit).denote = some (.string word)) (htext : lit.text = some text) :
    text = word := by
  obtain ⟨found, hfound, heq⟩ := Option.map_eq_some_iff.mp hdenote
  cases heq
  exact Option.some.inj (htext.symm.trans hfound)

@[simp]
theorem rawElements_slice (located : Located) :
    located.slice.rawElements = located.rawElements := by
  rw [Slice.rawElements, located.root_slice, Option.bind_some]

variable {slices : List Slice}

theorem elements_of_rawElements (hslices : located.rawElements = some slices) :
    slices = located.elements.map Located.slice := by
  obtain ⟨start, value⟩ := located
  cases value with
  | array inner => exact (Option.some.inj hslices).symm
  | emptyArray space => exact (Option.some.inj hslices).symm
  | _ => cases hslices

theorem array_of_rawElements (hslices : located.rawElements = some slices)
    (hdenote : located.value.denote = some value) : ∃ values, value = .array values := by
  obtain ⟨start, tree⟩ := located
  cases tree with
  | array inner =>
      obtain ⟨values, _, rfl⟩ := Option.map_eq_some_iff.mp hdenote
      exact ⟨values, rfl⟩
  | emptyArray space =>
      cases hdenote
      exact ⟨[], rfl⟩
  | _ => cases hslices

variable {found : Option Located}

/-- A borrowed field of an object stands under its name. -/
theorem reaches_of_optionalRaw {name : Utf8String} {slice : Slice}
    (hfield : located.field name = some found) (hslice : optionalRaw found = some slice) :
    ∃ part, slice = part.slice ∧ Reaches located [.key name] part := by
  obtain ⟨part, rfl, hpart⟩ := slice_of_optionalRaw hslice
  exact ⟨part, hpart, Located.reaches_of_field hfield⟩

variable {fields : List (Utf8String × Value)}
variable {document : Document}

theorem BodyView.spec (hdenote : document.root.value.denote = some (.object fields))
    {view : BodyView} (hview : BodyView.fromStr ⟨0, document.render⟩ = some view) :
    ∃ list, Reaches document.root [.key (constant "messages")] list ∧
      view.messages = list.elements.map Located.slice := by
  obtain ⟨parts, hparts, hview⟩ := Option.bind_eq_some_iff.mp hview
  rw [Slice.record, document.root_slice, Option.bind_some] at hparts
  obtain ⟨found, hfield, rfl⟩ := Located.record_one hdenote hparts
  cases found with
  | none => cases hview
  | some list =>
      obtain ⟨slices, hslices, hview⟩ := Option.bind_eq_some_iff.mp hview
      cases hview
      exact ⟨list, Located.reaches_of_field hfield, elements_of_rawElements hslices⟩

theorem MessageView.spec (hdenote : located.value.denote = some (.object fields))
    {view : MessageView} (hview : MessageView.fromStr located.slice = some view) :
    ∃ found, located.field (constant "content") = some found ∧
      view.content = optionalRaw found := by
  obtain ⟨parts, hparts, hview⟩ := Option.bind_eq_some_iff.mp hview
  rw [record_slice] at hparts
  obtain ⟨found, hfield, rfl⟩ := Located.record_one hdenote hparts
  cases hview
  exact ⟨found, hfield, rfl⟩

/-- The content that the planners locate stands under `content` of the message. -/
theorem locateContent_spec (hdenote : document.root.value.denote = some (.object fields))
    {messages : List Value}
    (hmessages : (Value.object fields).get (constant "messages") = some (.array messages))
    {position : ℕ} {message : List (Utf8String × Value)}
    (hmessage : messages[position]? = some (.object message)) {contentRaw : Slice} {offset : ℕ}
    (hlocate : locateContent document.render position = .ok (some (contentRaw, offset))) :
    ∃ content, contentRaw = content.slice ∧ offset = content.start ∧
      Reaches document.root
        [.key (constant "messages"), .index position, .key (constant "content")]
        content := by
  obtain ⟨bodyText, htext, hlocate⟩ := ok_of_bind hlocate
  rw [bytes_of_mapError htext] at hlocate
  obtain ⟨body, hbody, hlocate⟩ := ok_of_bind hlocate
  rw [okOr_eq_ok] at hbody
  obtain ⟨list, hlist, hslices⟩ := BodyView.spec hdenote hbody
  obtain ⟨messageRaw, hraw, hlocate⟩ := ok_of_bind hlocate
  rw [okOr_eq_ok, hslices, List.getElem?_map, Option.map_eq_some_iff] at hraw
  obtain ⟨element, hget, rfl⟩ := hraw
  have hreaches : Reaches document.root
      ([.key (constant "messages")] ++ [.index position]) element :=
    hlist.trans (.index hget (.here element))
  have hvalue : element.value.denote = some (.object message) := by
    obtain ⟨found, hfound, helement⟩ := hreaches.denote hdenote
    simp [Value.at?, hmessages, Value.asArray, hmessage] at hfound
    rw [helement, hfound]
  obtain ⟨view, hview, hlocate⟩ := ok_of_bind hlocate
  rw [okOr_eq_ok] at hview
  obtain ⟨found, hfield, hcontent⟩ := MessageView.spec hvalue hview
  cases hraw : optionalRaw found with
  | none =>
      rw [hcontent, hraw] at hlocate
      cases hlocate
  | some slice =>
      rw [hcontent, hraw] at hlocate
      obtain ⟨content, rfl, hpart⟩ := reaches_of_optionalRaw hfield hraw
      obtain ⟨offsetInMessage, hinner, hlocate⟩ := ok_of_bind hlocate
      obtain ⟨messageOffset, houter, hlocate⟩ := ok_of_bind hlocate
      cases hlocate
      have hinner := start_of_bytesOffsetOf hinner
      have houter := start_of_bytesOffsetOf houter
      refine ⟨content, rfl, ?_, hreaches.trans hpart⟩
      simp only [Located.slice] at hinner houter
      omega

variable {header : BlockHeader}

theorem BlockHeader.spec (hdenote : located.value.denote = some (.object fields))
    (hheader : BlockHeader.fromStr located.slice = some header) :
    ∃ type content, located.field (constant "type") = some type ∧
      located.field (constant "content") = some content ∧
      optionalText type = some header.type ∧ header.content = optionalRaw content := by
  obtain ⟨parts, hparts, hheader⟩ := Option.bind_eq_some_iff.mp hheader
  rw [record_slice] at hparts
  obtain ⟨type, content, htype, hcontent, rfl⟩ := Located.record_two hdenote hparts
  obtain ⟨text, htext, hheader⟩ := Option.bind_eq_some_iff.mp hheader
  cases hheader
  exact ⟨type, content, htype, hcontent, htext, rfl⟩

theorem TextHeader.spec (hdenote : located.value.denote = some (.object fields))
    {header : TextHeader} (hheader : TextHeader.fromStr located.slice = some header) :
    ∃ text, located.field (constant "text") = some text ∧
      header.text = optionalRaw text := by
  obtain ⟨parts, hparts, hheader⟩ := Option.bind_eq_some_iff.mp hheader
  rw [record_slice] at hparts
  obtain ⟨text, htext, rfl⟩ := Located.record_one hdenote hparts
  cases hheader
  exact ⟨text, htext, rfl⟩

variable {values : List Value}

theorem BlockHeader.listed (hdenote : located.value.denote = some (.array values))
    (hheader : BlockHeader.fromStr located.slice = some header) :
    located.elements.length ≤ 2 ∧
      optionalText located.elements[0]? = some header.type ∧
      header.content = optionalRaw located.elements[1]? := by
  obtain ⟨parts, hparts, hheader⟩ := Option.bind_eq_some_iff.mp hheader
  rw [record_slice] at hparts
  obtain ⟨hlength, hlisted⟩ := Located.record_of_array hdenote hparts
  rw [List.mapIdx_cons, List.mapIdx_cons, List.mapIdx_nil] at hlisted
  subst hlisted
  obtain ⟨type, htype, hheader⟩ := Option.bind_eq_some_iff.mp hheader
  cases hheader
  exact ⟨hlength, htype, rfl⟩

theorem TextHeader.listed (hdenote : located.value.denote = some (.array values))
    {header : TextHeader} (hheader : TextHeader.fromStr located.slice = some header) :
    header.text = optionalRaw located.elements[0]? := by
  obtain ⟨parts, hparts, hheader⟩ := Option.bind_eq_some_iff.mp hheader
  rw [record_slice] at hparts
  obtain ⟨_, hlisted⟩ := Located.record_of_array hdenote hparts
  rw [List.mapIdx_cons, List.mapIdx_nil] at hlisted
  subst hlisted
  cases hheader
  rfl

/-- What a type in the header says about the value of the block. -/
def TypeRead (block : Value) : Option Utf8String → Prop
  | some type => block.get (constant "type") = some (.string type)
  | none => ∀ type ∈ block.get (constant "type"), type = .null

theorem type_of_header (hdenote : located.value.denote = some (.object fields))
    (hfield : located.field (constant "type") = some found) {type : Option Utf8String}
    (htype : optionalText found = some type) : TypeRead (.object fields) type := by
  have hget := Located.get_of_field hdenote hfield
  cases found with
  | none =>
      cases htype
      intro value hvalue
      rw [Option.mem_def.mp hvalue] at hget
      cases hget
  | some part =>
      cases type with
      | some text =>
          rw [Option.map_some, string_of_optionalText htype] at hget
          obtain ⟨value, hvalue, heq⟩ := Option.map_eq_some_iff.mp hget.symm
          cases heq
          exact hvalue
      | none =>
          have hnull := Located.denote_of_isNull (isNull_of_optionalText htype part rfl)
          rw [Option.map_some, hnull] at hget
          obtain ⟨value, hvalue, heq⟩ := Option.map_eq_some_iff.mp hget.symm
          cases heq
          intro other hother
          rw [Option.mem_def.mp hother] at hvalue
          exact Option.some.inj hvalue

/-- The text of a text block, or the word `text` in a block that lists its fields. -/
theorem TextHeader.text_spec {block : Located} (hdenote : block.value.denote = some value)
    (hheader : BlockHeader.fromStr block.slice = some header)
    (htype : header.type = some (constant "text")) {view : TextHeader}
    (hview : TextHeader.fromStr block.slice = some view) {field : Slice}
    (hfield : view.text = some field) :
    ∃ part, field = part.slice ∧
      (part.value.denote = some (.string (constant "text")) ∨
        (value.get (constant "type") = some (.string (constant "text")) ∧
          Reaches block [.key (constant "text")] part)) := by
  cases value with
  | object fields =>
      obtain ⟨type, _, htypeField, _, hread, _⟩ := BlockHeader.spec hdenote hheader
      have hget := type_of_header hdenote htypeField hread
      rw [htype] at hget
      obtain ⟨found, hfound, htext⟩ := TextHeader.spec hdenote hview
      obtain ⟨part, hslice, hreaches⟩ :=
        reaches_of_optionalRaw hfound (htext.symm.trans hfield)
      exact ⟨part, hslice, Or.inr ⟨hget, hreaches⟩⟩
  | array values =>
      obtain ⟨_, hread, _⟩ := BlockHeader.listed hdenote hheader
      have htext := TextHeader.listed hdenote hview
      obtain ⟨part, hpart, hslice⟩ := slice_of_optionalRaw (htext.symm.trans hfield)
      rw [hpart, htype] at hread
      exact ⟨part, hslice, Or.inl (string_of_optionalText hread)⟩
  | _ =>
      rw [BlockHeader.fromStr, record_slice, Located.record_eq_none hdenote
        (by simp) (by simp)] at hheader
      cases hheader

end Legroom.LiveZone
