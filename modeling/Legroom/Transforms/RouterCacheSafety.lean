import Legroom.Transforms.RouterFold

/-!
# What cached bytes rest on

Messages below the frozen count, blocks with a cache breakpoint and protected texts come out as
they went in, and the other messages differ in texts only.
-/

namespace Legroom.RouterApply

open Python BlockDecisions Ccr

variable {K S : Type} {call : Call K S}

/-! ## Erased messages -/

theorem get_eraseMessage (call : Call K S) (isOpen : Bool) (index : ℕ) (message : Value)
    {key : Text} (hkey : key ≠ text "content") :
    (eraseMessage call isOpen index message).get key = message.get key := by
  have hput {found : Value} (hcontent : message.get (text "content") = some found) (new : Value) :
      (message.put (text "content") new).get key = message.get key :=
    (Value.get_put (Value.isDict_of_get hcontent) _ _ _).trans (if_neg hkey)
  rw [eraseMessage]
  split
  next => rfl
  next =>
    split
    next hcontent =>
      split_ifs
      · rfl
      · exact hput hcontent _
    next hcontent => exact hput hcontent _
    next => rfl

variable {value found : Value}

theorem partAt_put_text (hfound : value.get (text "content") = some found) (shown : Text)
    (part : ℕ) :
    partAt (value.put (text "content") (.str shown)) part = none := by
  rw [partAt, Value.get_put (Value.isDict_of_get hfound), if_pos rfl]
  rfl

theorem partAt_put_items (hfound : value.get (text "content") = some found) (items : List Value)
    (part : ℕ) : partAt (value.put (text "content") (.list items)) part = items[part]? := by
  rw [partAt, Value.get_put (Value.isDict_of_get hfound), if_pos rfl]
  rfl

theorem partAt_of_text {shown : Text} (hcontent : value.get (text "content") = some (.str shown))
    (part : ℕ) : partAt value part = none := by
  rw [partAt, hcontent]
  rfl

variable {isOpen : Bool} {index : ℕ}

theorem partAt_eraseMessage (hindex : call.options.frozenMessageCount ≤ index) (message : Value)
    (position : ℕ) :
    partAt (eraseMessage call isOpen index message) position =
      (partAt message position).map (eraseBlock (keepsTextBlocks call (roleOf message))) := by
  rw [eraseMessage, if_neg (not_lt.mpr hindex)]
  split
  next hcontent =>
    rw [partAt_of_text hcontent]
    split_ifs
    · exact partAt_of_text hcontent position
    · exact partAt_put_text hcontent _ position
  next hcontent =>
    rw [partAt_put_items hcontent, partAt_of_get hcontent, List.getElem?_map]
  next hnone hlist =>
    have hpart : partAt message position = none := by
      rw [Option.eq_none_iff_forall_ne_some]
      intro block hblock
      obtain ⟨blocks, hcontent, -⟩ := exists_of_partAt hblock
      exact hlist blocks hcontent
    rw [hpart]
    rfl

/-! ## Erased blocks -/

variable {item : Value}

theorem eraseSub_cached (hcache : hasCacheControl item = true) : eraseSub item = item := by
  unfold eraseSub
  rw [hcache, Bool.not_true, Bool.and_false]

theorem hasCacheControl_eraseSub (item : Value) :
    hasCacheControl (eraseSub item) = hasCacheControl item := by
  unfold eraseSub
  split
  next entries shown hopen _ =>
    rw [Bool.and_eq_true, Bool.not_eq_true'] at hopen
    split_ifs
    · exact hopen.2.symm
    · exact hasCacheControl_put (by decide) _
  next => rfl

theorem eraseSub_eq_iff (hcache : hasCacheControl item = true) :
    eraseSub found = item ↔ found = item := by
  constructor
  · rintro rfl
    rw [hasCacheControl_eraseSub] at hcache
    exact (eraseSub_cached hcache).symm
  · rintro rfl
    exact eraseSub_cached hcache

variable (protectText : Bool)

theorem hasCacheControl_eraseBlock (block : Value) :
    hasCacheControl (eraseBlock protectText block) = hasCacheControl block := by
  rw [eraseBlock]
  split_ifs
  · rfl
  · split
    · exact hasCacheControl_put (by decide) _
    · exact hasCacheControl_put (by decide) _
    · rfl
  · split
    · exact hasCacheControl_put (by decide) _
    · rfl
  · rfl

theorem hasType_eraseBlock (block : Value) (type : Text) :
    hasType type (eraseBlock protectText block) = hasType type block := by
  rw [eraseBlock]
  split_ifs
  · rfl
  · split
    · exact hasType_put (by decide) _ _
    · exact hasType_put (by decide) _ _
    · rfl
  · split
    · exact hasType_put (by decide) _ _
    · rfl
  · rfl

/-- An item with a cache breakpoint is not erased. -/
theorem partAt_eraseBlock (block : Value) {part : ℕ} (hcache : hasCacheControl item = true) :
    partAt (eraseBlock protectText block) part = some item ↔ partAt block part = some item := by
  rw [eraseBlock]
  split_ifs
  · rfl
  · split
    next hcontent => rw [partAt_put_text hcontent, partAt_of_text hcontent]
    next items hcontent =>
      rw [partAt_put_items hcontent, partAt_of_get hcontent, List.getElem?_map]
      cases items[part]? with
      | none => rfl
      | some found => rw [Option.map_some, Option.some_inj, Option.some_inj, eraseSub_eq_iff hcache]
    next => rfl
  · split
    next hshown =>
      rw [partAt, partAt, Value.get_put (Value.isDict_of_get hshown), if_neg (by decide)]
    next => rfl
  · rfl

variable {block : Value}

/-- Cached blocks are not erased. -/
theorem eraseBlock_cached (hcache : hasCacheControl block = true) :
    eraseBlock protectText block = block := by
  rw [eraseBlock, if_pos hcache]

theorem hasType_unique {first second : Text} (hfirst : hasType first item = true)
    (hne : first ≠ second) : hasType second item = false := by
  rw [hasType] at hfirst ⊢
  cases htype : item.get (text "type") with
  | none => rfl
  | some found =>
      rw [htype, Option.any_some] at hfirst
      rw [Option.any_some]
      cases found with
      | str type =>
          rw [show type = first from beq_iff_eq.mp hfirst]
          exact beq_eq_false_iff_ne.mpr hne
      | _ => rfl

/-- Protected text blocks are not erased. -/
theorem eraseBlock_protected (htype : hasType (text "text") block = true) :
    eraseBlock true block = block := by
  rw [eraseBlock, hasType_unique htype (by decide : text "text" ≠ text "tool_result"), htype]
  simp only [Bool.false_eq_true, if_false, Bool.not_true, Bool.and_false, ite_self]

/-! ## The frame of a message -/

/-- What is kept of a message, and what of its texts. -/
structure Frame (call : Call K S) (isOpen : Bool) (index : ℕ) (message new : Value) : Prop where
  frozen : index < call.options.frozenMessageCount → new = message
  /-- All but the texts that may change. -/
  erased : eraseMessage call isOpen index new = eraseMessage call isOpen index message
  cached : ∀ position block, partAt message position = some block →
    hasCacheControl block = true → partAt new position = some block
  nested : ∀ position part block item, partAt message position = some block →
    partAt block part = some item → hasCacheControl item = true →
      ∃ found, partAt new position = some found ∧ partAt found part = some item
  strings : ∀ shown, message.get (text "content") = some (.str shown) →
    keepsStrings call (roleOf message) = true → isOpen = false → new = message
  textBlocks : ∀ position block, partAt message position = some block →
    hasType (text "text") block = true → keepsTextBlocks call (roleOf message) = true →
      partAt new position = some block

theorem Frame.refl (call : Call K S) (isOpen : Bool) (index : ℕ) (message : Value) :
    Frame call isOpen index message message where
  frozen _ := rfl
  erased := rfl
  cached _ _ hblock _ := hblock
  nested _ _ block _ hblock hitem _ := ⟨block, hblock, hitem⟩
  strings _ _ _ _ := rfl
  textBlocks _ _ hblock _ _ := hblock

variable {message new : Value}

theorem roleOf_eq_of_erased
    (herased : eraseMessage call isOpen index new = eraseMessage call isOpen index message) :
    roleOf new = roleOf message := by
  have hrole : (eraseMessage call isOpen index new).get (text "role") = new.get (text "role") :=
    get_eraseMessage call isOpen index new (by decide)
  rw [herased, get_eraseMessage call isOpen index message (by decide)] at hrole
  rw [roleOf, roleOf, hrole]

/-- A block, and the block in its place. -/
theorem exists_partAt {position : ℕ} (hindex : call.options.frozenMessageCount ≤ index)
    (herased : eraseMessage call isOpen index new = eraseMessage call isOpen index message)
    (hblock : partAt message position = some block) :
    ∃ found, partAt new position = some found ∧
      eraseBlock (keepsTextBlocks call (roleOf message)) found =
        eraseBlock (keepsTextBlocks call (roleOf message)) block := by
  have hpart : partAt (eraseMessage call isOpen index new) position = _ :=
    partAt_eraseMessage hindex new position
  rw [herased, partAt_eraseMessage hindex message, hblock, Option.map_some,
    roleOf_eq_of_erased herased] at hpart
  obtain ⟨found, hfound, hsame⟩ := Option.map_eq_some_iff.mp hpart.symm
  exact ⟨found, hfound, hsame⟩

/-- A string that is kept is not erased. -/
theorem eq_of_keepsStrings {shown : Text}
    (herased : eraseMessage call false index new = eraseMessage call false index message)
    (hcontent : message.get (text "content") = some (.str shown))
    (hkeeps : keepsStrings call (roleOf message) = true) : new = message := by
  have hmessage : eraseMessage call false index message = message := by
    rw [eraseMessage, hcontent]
    simp only [hkeeps, Bool.not_false, Bool.and_self, if_true, ite_self]
  rw [hmessage] at herased
  have hrole : roleOf new = roleOf message := roleOf_eq_of_erased (herased.trans hmessage.symm)
  rw [eraseMessage] at herased
  split at herased
  next => exact herased
  next =>
    split at herased
    next =>
      rwa [hrole, hkeeps, Bool.not_false, Bool.and_self, if_pos rfl] at herased
    next blocks hblocks =>
      rw [← herased, Value.get_put (Value.isDict_of_get hblocks), if_pos rfl] at hcontent
      cases hcontent
    next => exact herased

/-- The rest of the frame follows from what is erased. -/
theorem frame_of_erased (hindex : call.options.frozenMessageCount ≤ index)
    (herased : eraseMessage call isOpen index new = eraseMessage call isOpen index message) :
    Frame call isOpen index message new where
  frozen hless := absurd hless (not_lt.mpr hindex)
  erased := herased
  cached position block hblock hcache := by
    obtain ⟨found, hfound, hsame⟩ := exists_partAt hindex herased hblock
    rw [eraseBlock_cached _ hcache] at hsame
    have hcached : hasCacheControl found = true := by
      rw [← hasCacheControl_eraseBlock, hsame, hcache]
    rw [eraseBlock_cached _ hcached] at hsame
    rw [hfound, hsame]
  nested position part block item hblock hitem hcache := by
    obtain ⟨found, hfound, hsame⟩ := exists_partAt hindex herased hblock
    refine ⟨found, hfound, ?_⟩
    rwa [← partAt_eraseBlock _ _ hcache, hsame, partAt_eraseBlock _ _ hcache]
  strings shown hcontent hkeeps hopen := by
    rw [hopen] at herased
    exact eq_of_keepsStrings herased hcontent hkeeps
  textBlocks position block hblock htype hkeeps := by
    obtain ⟨found, hfound, hsame⟩ := exists_partAt hindex herased hblock
    rw [hkeeps, eraseBlock_protected htype] at hsame
    have htext : hasType (text "text") found = true := by
      rw [← hasType_eraseBlock true, hsame, htype]
    rw [eraseBlock_protected htext] at hsame
    rw [hfound, hsame]

theorem frame_of_keptAt (hkept : KeptAt call isOpen (message, index) new) :
    Frame call isOpen index message new := by
  by_cases hless : index < call.options.frozenMessageCount
  · rw [hkept.2 hless]
    exact Frame.refl call isOpen index message
  · exact frame_of_erased (not_lt.mp hless) (hkept.1 (not_lt.mp hless)).1

/-! ## The frame of a call -/

theorem forall₂_zipIdx_iff {α β : Type} {holds : α × ℕ → β → Prop} {items : List α}
    {news : List β} :
    List.Forall₂ holds items.zipIdx news ↔ news.length = items.length ∧
      ∀ index item new, items[index]? = some item → news[index]? = some new →
        holds (item, index) new := by
  rw [List.forall₂_iff_get]
  refine and_congr (by rw [List.length_zipIdx, eq_comm])
    ⟨fun hall index item new hitem hnew => ?_, fun hall index hitem hnew => ?_⟩
  · obtain ⟨hless, rfl⟩ := List.getElem?_eq_some_iff.mp hitem
    obtain ⟨hbound, rfl⟩ := List.getElem?_eq_some_iff.mp hnew
    have hholds := hall index (by rwa [List.length_zipIdx]) hbound
    rwa [List.get_eq_getElem, List.get_eq_getElem, List.getElem_zipIdx, Nat.zero_add] at hholds
  · have hless : index < items.length := by rwa [List.length_zipIdx] at hitem
    rw [List.get_eq_getElem, List.get_eq_getElem, List.getElem_zipIdx, Nat.zero_add]
    exact hall index _ _ (List.getElem?_eq_getElem hless) (List.getElem?_eq_getElem hnew)

/-- As many messages in the same order, each in its frame. -/
def Frames (call : Call K S) (isOpen : ℕ → Bool) (messages news : List Value) : Prop :=
  List.Forall₂ (fun entry new => Frame call (isOpen entry.2) entry.2 entry.1 new)
    messages.zipIdx news

/-- A message that may change, plain before and behind the last pass. -/
theorem frames_crossTurnDedup {messages routed : List Value}
    (hkept : ∀ isOpen, List.Forall₂ (KeptAt call isOpen) messages.zipIdx routed) :
    Frames call (isUserReadObservation call routed) messages
      (crossTurnDedupMessages call routed) := by
  obtain ⟨hlength, -⟩ := forall₂_zipIdx_iff.mp (hkept true)
  have hat (isOpen : Bool) := (forall₂_zipIdx_iff.mp (hkept isOpen)).2
  rw [Frames, forall₂_zipIdx_iff, crossTurnDedupMessages]
  cases hchanges : dedupChanges call routed with
  | none => exact ⟨hlength, fun index message new hmessage hnew =>
      frame_of_keptAt (hat _ index message new hmessage hnew)⟩
  | some changes =>
      refine ⟨(List.length_mapIdx).trans hlength, fun index message new hmessage hnew => ?_⟩
      rw [List.getElem?_mapIdx, Option.map_eq_some_iff] at hnew
      obtain ⟨between, hbetween, rfl⟩ := hnew
      have hfirst := hat (isUserReadObservation call routed index) index message between hmessage
        hbetween
      have hfold : ChangesFold call routed changes := dedupChanges_foldable hchanges
      by_cases hless : index < call.options.frozenMessageCount
      · rw [rewriteMessage_frozen hfold hless]
        exact frame_of_keptAt hfirst
      · obtain ⟨herased, hplain⟩ := hfirst.1 (not_lt.mp hless)
        exact frame_of_erased (not_lt.mp hless)
          ((rewriteMessage_kept hfold hbetween (not_lt.mp hless) hplain).1.trans herased)

variable [DecidableEq K]

/-- The router keeps all but the texts that may change.  The last pass may also change a string of
a protected user that shows what a fenced command has read, and no other. -/
theorem apply_frames (call : Call K S) {messages : List Value}
    (hwell : ∀ message ∈ messages, WellFormed message)
    (hplain : ∀ entry ∈ messages.zipIdx,
      call.options.frozenMessageCount ≤ entry.2 → PlainMessage entry.1)
    (state : RouterState K S) :
    ∃ routed after, routeMessages call messages state = some (routed, after) ∧
      Frames call (fun _ => false) messages routed ∧
      Frames call (isUserReadObservation call routed) messages
        (crossTurnDedupMessages call routed) ∧
      apply call messages state =
        some (if call.options.crossTurnDedup then crossTurnDedupMessages call routed else routed,
          after) := by
  obtain ⟨⟨routed, after⟩, hroute⟩ := exists_routeMessages call hwell state
  have hkept (isOpen : Bool) : List.Forall₂ (KeptAt call isOpen) messages.zipIdx routed :=
    routeMessages_kept hplain hroute
  refine ⟨routed, after, hroute, ?_, frames_crossTurnDedup hkept, ?_⟩
  · exact (hkept false).imp fun entry new hat => frame_of_keptAt hat
  · simp only [apply, hroute, bind, Option.bind_some]

/-! ## A read by a protected user -/

def messageOf (role content : Text) : Value :=
  .dict [(text "role", .str role), (text "content", .str content)]

def command : Text := text "```bash\ncat notes.md\n```"

def notes : Text := text "Meet the team at ten.\nWrite the minutes.\nSend them round before noon."

/-- Two times the same command, and what it reads. -/
def readTwice : List Value :=
  [messageOf (text "assistant") command, messageOf (text "user") notes,
    messageOf (text "assistant") command, messageOf (text "user") notes]

/-- User messages are protected, and repetitions are folded. -/
def protectingUsers : Call Unit Unit where
  router := ⟨fun _ => (), fun block => ⟨block.content, .passthrough, [], 1⟩, List.length, 1, true,
    true⟩
  options := ⟨0, true, true, false, 50, 100, 0, false, 0, true, 1000, true⟩
  findings := {
    toolName := fun _ => []
    isExcluded := fun _ => false
    isVerbatimTool := fun _ => false
    isProtectedRead := fun _ => false
    isProtectedReadAt := fun _ => false
    readOutputShouldBeProtected := fun _ => false
    compactOf := fun _ => none
    searchFoldOf := fun _ _ _ => none
    hasStrongErrorIndicators := fun _ => false
    isCode := fun _ => false
    analysisIntent := false
    isFencedRead := fun content => content.isText command
    verbatimToolIds := fun _ _ => false }
  tables := asciiTables
  settingAt _ _ := ()
  turnAt _ _ _ := ⟨0, 1, true, true⟩

def emptyState : RouterState Unit Unit := ⟨fun _ => none, fun _ => none, .empty⟩

/-- The texts of messages that are strings. -/
def shownTexts (messages : List Value) : List (Option Text) :=
  messages.map fun message => (message.get (text "content")).bind Value.asText

/-- A read is folded, though its user is protected. -/
theorem shownTexts_apply :
    (apply protectingUsers readTwice emptyState).map (fun result => shownTexts result.1) =
      some [some command, some notes, some command,
        some (text "[↑3L same as msg 1: \x27Meet the team at ...\x27]")] := by
  decide +kernel

theorem wellFormed_messageOf (role content : Text) : WellFormed (messageOf role content) where
  isDict := rfl
  role := rfl
  callId := rfl
  useId := rfl
  blocks _ hblocks := nomatch hblocks

theorem plainMessage_messageOf (role content : Text) : PlainMessage (messageOf role content) :=
  fun _ hblocks => nomatch hblocks

theorem forall_mem_readTwice {holds : Value → Prop}
    (hholds : ∀ role content, holds (messageOf role content)) :
    ∀ message ∈ readTwice, holds message := by
  simp only [readTwice, List.forall_mem_cons, hholds, true_and]
  exact fun message hmessage => absurd hmessage List.not_mem_nil

theorem read_leaves_frame :
    (∀ message ∈ readTwice, WellFormed message) ∧ (∀ message ∈ readTwice, PlainMessage message) ∧
      ∃ news after, apply protectingUsers readTwice emptyState = some (news, after) ∧
        ¬ Frames protectingUsers (fun _ => false) readTwice news := by
  refine ⟨forall_mem_readTwice wellFormed_messageOf,
    forall_mem_readTwice plainMessage_messageOf, ?_⟩
  obtain ⟨⟨news, after⟩, happly, htexts⟩ := Option.map_eq_some_iff.mp shownTexts_apply
  refine ⟨news, after, happly, fun hframes => ?_⟩
  obtain ⟨hlength, hframe⟩ := forall₂_zipIdx_iff.mp hframes
  have hless : 3 < news.length := by
    rw [hlength]
    decide
  have hsame : news[3] = messageOf (text "user") notes :=
    (hframe 3 _ _ rfl (List.getElem?_eq_getElem hless)).strings notes rfl rfl rfl
  have hshown : (shownTexts news)[3]? = some (some notes) := by
    rw [shownTexts, List.getElem?_map, List.getElem?_eq_getElem hless, hsame]
    rfl
  rw [htexts] at hshown
  exact absurd hshown (by decide)

/-- A tool result with one text block, and a text block with a cache breakpoint. -/
def answer : Value :=
  .dict [(text "role", .str (text "user")), (text "content", .list [
    .dict [(text "type", .str (text "tool_result")), (text "tool_use_id", .str (text "toolu_1")),
      (text "content", .list [.dict [(text "type", .str (text "text")),
        (text "text", .str notes)]])],
    .dict [(text "type", .str (text "text")), (text "text", .str (text "Summarize the notes.")),
      (text "cache_control", .dict [(text "type", .str (text "ephemeral"))])]])]

theorem wellFormed_answer : WellFormed answer where
  isDict := rfl
  role := rfl
  callId := rfl
  useId := rfl
  blocks blocks hblocks := by
    cases hblocks
    decide

theorem plainMessage_answer : PlainMessage answer := by
  intro blocks hblocks
  cases hblocks
  simp only [List.forall_mem_cons]
  refine ⟨fun _ _ items hitems => ?_, nofun,
    fun block hblock => absurd hblock List.not_mem_nil⟩
  cases hitems
  exact plainItems_rewrap notes

theorem apply_frames_answer :
    ∃ routed after, routeMessages protectingUsers [messageOf (text "assistant") command, answer]
        emptyState = some (routed, after) ∧
      Frames protectingUsers (fun _ => false) [messageOf (text "assistant") command, answer]
        routed ∧
      Frames protectingUsers (isUserReadObservation protectingUsers routed)
        [messageOf (text "assistant") command, answer]
        (crossTurnDedupMessages protectingUsers routed) ∧
      apply protectingUsers [messageOf (text "assistant") command, answer] emptyState =
        some (crossTurnDedupMessages protectingUsers routed, after) := by
  refine apply_frames protectingUsers ?_ ?_ emptyState
  · exact List.forall_mem_cons.mpr ⟨wellFormed_messageOf _ _,
      List.forall_mem_singleton.mpr wellFormed_answer⟩
  · simp only [List.zipIdx_cons, List.zipIdx_nil, List.forall_mem_cons]
    exact ⟨fun _ => plainMessage_messageOf _ _, fun _ => plainMessage_answer,
      fun entry hentry => absurd hentry List.not_mem_nil⟩

end Legroom.RouterApply
