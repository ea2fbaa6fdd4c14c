import Legroom.Transforms.RouterFrame

/-!
# The frame law of the router

The passes keep all messages but for texts that may change.  The last pass may also fold strings of
users that show what a command has read.
-/

namespace Legroom.RouterApply

open Python BlockDecisions Ccr

variable {K S : Type} [DecidableEq K] {call : Call K S}

/-! ## Passes -/

/-- A message at an index, and the message in its place. -/
def KeptAt (call : Call K S) (isOpen : Bool) (entry : Value × ℕ) (new : Value) : Prop :=
  (call.options.frozenMessageCount ≤ entry.2 → KeptMessage call isOpen entry.2 entry.1 new) ∧
    (entry.2 < call.options.frozenMessageCount → new = entry.1)

def SlotAt (call : Call K S) (isOpen : Bool) (entry : Value × ℕ) (slot : Slot S) : Prop :=
  (call.options.frozenMessageCount ≤ entry.2 →
      PlainMessage entry.1 ∧ SlotKept call isOpen entry.2 entry.1 slot) ∧
    (entry.2 < call.options.frozenMessageCount → slot = .done entry.1)

variable {messages : List Value}
variable {state after : RouterState K S} {slots : List (Slot S)}

theorem firstPass_kept (isOpen : Bool) {count : ℕ} {index : ℕ}
    (hplain : ∀ entry ∈ messages.zipIdx index,
      call.options.frozenMessageCount ≤ entry.2 → PlainMessage entry.1)
    (hpass : firstPass call count index messages state = some (slots, after)) :
    List.Forall₂ (SlotAt call isOpen) (messages.zipIdx index) slots := by
  induction messages generalizing index state slots after with
  | nil =>
      cases hpass
      exact .nil
  | cons message messages ih =>
      simp only [firstPass, bind, Option.bind_eq_some_iff] at hpass
      obtain ⟨⟨slot, between⟩, hslot, ⟨rest, behind⟩, hrest, heq⟩ := hpass
      obtain ⟨rfl, -⟩ := Prod.mk.inj (Option.some_inj.mp heq)
      rw [List.zipIdx_cons, List.forall_mem_cons] at hplain
      rw [List.zipIdx_cons]
      have hkept := messageSlot_kept isOpen hplain.1 hslot
      exact .cons ⟨fun hindex => ⟨hplain.1 hindex, hkept.1 hindex⟩, hkept.2⟩ (ih hplain.2 hrest)

theorem mergePass_kept {isOpen : Bool} {entries : List (Value × ℕ)}
    (hslots : List.Forall₂ (SlotAt call isOpen) entries slots) (state : RouterState K S) :
    List.Forall₂ (KeptAt call isOpen) entries (mergePass call slots state).1 := by
  induction hslots generalizing state with
  | nil => exact .nil
  | @cons entry slot entries slots hslot _ ih =>
      cases slot with
      | done message =>
          refine .cons ⟨fun hindex => (hslot.1 hindex).2, fun hless => ?_⟩ (ih state)
          exact Slot.done.inj (hslot.2 hless)
      | pending message block index =>
          refine .cons ⟨fun hindex => ?_, fun hless => absurd (hslot.2 hless) nofun⟩ (ih _)
          obtain ⟨hplain, rfl, hkeeps, old, hold⟩ := hslot.1 hindex
          exact shownAs_kept hplain hindex hold hkeeps _

theorem routeMessages_kept {isOpen : Bool} {routed : List Value}
    (hplain : ∀ entry ∈ messages.zipIdx,
      call.options.frozenMessageCount ≤ entry.2 → PlainMessage entry.1)
    (hroute : routeMessages call messages state = some (routed, after)) :
    List.Forall₂ (KeptAt call isOpen) messages.zipIdx routed := by
  simp only [routeMessages, bind, Option.bind_eq_some_iff] at hroute
  obtain ⟨⟨slots, between⟩, hpass, heq⟩ := hroute
  have hmerged := mergePass_kept (firstPass_kept isOpen hplain hpass) between
  rwa [Option.some_inj.mp heq] at hmerged

/-! ## Calls that do not raise -/

/-- A message as the type of a request has it. -/
structure WellFormed (message : Value) : Prop where
  isDict : message.isDict = true
  role : isHashable (roleOf message) = true
  callId : isHashable ((message.get (text "tool_call_id")).getD .none) = true
  useId : isHashable ((message.get (text "tool_use_id")).getD .none) = true
  blocks : ∀ blocks, message.get (text "content") = some (.list blocks) → ∀ block ∈ blocks,
    isHashable ((block.get (text "tool_use_id")).getD .none) = true ∧
      (flatten ((block.get (text "content")).getD (.str []))).isSome = true

theorem isHashable_getD {found : Option Value} {default : Value}
    (hfound : isHashable (found.getD .none) = true) (hdefault : isHashable default = true) :
    isHashable (found.getD default) = true := by
  cases found with
  | none => exact hdefault
  | some value => exact hfound

theorem isHashable_orElse {left right : Value} (hleft : isHashable left = true)
    (hright : isHashable right = true) : isHashable (left.orElse right) = true := by
  rw [Value.orElse]
  split_ifs
  · exact hleft
  · exact hright

variable (call : Call K S)

theorem exists_blockChange (isTool protectText : Bool) (fromEnd index position : ℕ) {block : Value}
    (hid : isHashable ((block.get (text "tool_use_id")).getD .none) = true)
    (hflat : (flatten ((block.get (text "content")).getD (.str []))).isSome = true)
    (state : RouterState K S) :
    ∃ result, blockChange call isTool protectText fromEnd index position block state =
      some result := by
  have hhash : isHashable ((block.get (text "tool_use_id")).getD (.str [])) = true :=
    isHashable_getD hid rfl
  obtain ⟨flat, hflat⟩ := Option.isSome_iff_exists.mp hflat
  rw [blockChange]
  split_ifs
  · exact ⟨_, rfl⟩
  · simp only [toolResultChange, hflat, hhash, bind, Option.bind_some, Bool.not_true,
      Bool.false_eq_true, if_false]
    split_ifs
    · exact ⟨_, rfl⟩
    · exact ⟨_, rfl⟩
    · exact ⟨_, rfl⟩
    · cases flat with
      | str shown => exact ⟨_, rfl⟩
      | none => exact ⟨_, rfl⟩
      | number found => exact ⟨_, rfl⟩
      | list items => exact ⟨_, rfl⟩
      | dict entries => exact ⟨_, rfl⟩
  · exact ⟨_, rfl⟩
  · exact ⟨_, rfl⟩

theorem exists_changeBlocks (isTool protectText : Bool) (fromEnd index : ℕ) {blocks : List Value}
    (hblocks : ∀ block ∈ blocks, isHashable ((block.get (text "tool_use_id")).getD .none) = true ∧
      (flatten ((block.get (text "content")).getD (.str []))).isSome = true) (position : ℕ)
    (state : RouterState K S) :
    ∃ result, changeBlocks call isTool protectText fromEnd index position blocks state =
      some result := by
  induction blocks generalizing position state with
  | nil => exact ⟨_, rfl⟩
  | cons block blocks ih =>
      obtain ⟨⟨hid, hflat⟩, hrest⟩ := List.forall_mem_cons.mp hblocks
      obtain ⟨⟨change, between⟩, hchange⟩ :=
        exists_blockChange call isTool protectText fromEnd index position hid hflat state
      obtain ⟨⟨others, changed, after⟩, hothers⟩ := ih hrest (position + 1) between
      simp only [changeBlocks, hchange, hothers, bind, Option.bind_some]
      exact ⟨_, rfl⟩

variable {message : Value}

omit [DecidableEq K] in
theorem exists_toolMessageAnswer (fromEnd : ℕ)
    (hid : isHashable ((message.get (text "tool_call_id")).getD .none) = true) (content : Text) :
    ∃ answer, toolMessageAnswer call fromEnd message content = some answer := by
  have hhash : isHashable ((message.get (text "tool_call_id")).getD (.str [])) = true :=
    isHashable_getD hid rfl
  simp only [toolMessageAnswer, hhash, Bool.not_true, Bool.false_eq_true, if_false]
  split_ifs
  · exact ⟨_, rfl⟩
  · exact ⟨_, rfl⟩
  · exact ⟨_, rfl⟩

omit [DecidableEq K] in
theorem exists_isReadObservation (index : ℕ) (hwell : WellFormed message) (content : Text) :
    ∃ isRead, isReadObservation call index message content = some isRead := by
  have hhash : isHashable ((((message.get (text "tool_call_id")).getD .none).orElse
      ((message.get (text "tool_use_id")).getD .none)).orElse (.str [])) = true :=
    isHashable_orElse (isHashable_orElse hwell.callId hwell.useId) rfl
  simp only [isReadObservation, hhash, Bool.not_true, Bool.false_eq_true, if_false]
  split_ifs
  · exact ⟨_, rfl⟩
  · exact ⟨_, rfl⟩

omit [DecidableEq K] in
theorem exists_isProtectedRole {role : Value} (hrole : isHashable role = true) :
    ∃ isProtected, isProtectedRole call role = some isProtected := by
  simp only [isProtectedRole, hrole, Bool.not_true, Bool.false_eq_true, if_false]
  split_ifs
  · exact ⟨_, rfl⟩
  · exact ⟨_, rfl⟩
  · exact ⟨_, rfl⟩

omit [DecidableEq K] in
theorem exists_protectTextBlocks {role : Value} (hrole : isHashable role = true) :
    ∃ protectText, protectTextBlocks call role = some protectText := by
  simp only [protectTextBlocks, hrole, Bool.not_true, Bool.false_eq_true, if_false]
  split_ifs
  · exact ⟨_, rfl⟩
  · exact ⟨_, rfl⟩
  · exact ⟨_, rfl⟩
  · exact ⟨_, rfl⟩

theorem exists_stringSlot (fromEnd index : ℕ) (hwell : WellFormed message) (content : Text)
    (state : RouterState K S) :
    ∃ result, stringSlot call fromEnd index message content state = some result := by
  obtain ⟨isRead, hread⟩ := exists_isReadObservation call index hwell content
  obtain ⟨isProtected, hprotected⟩ := exists_isProtectedRole call hwell.role
  obtain ⟨answer, hanswer⟩ : ∃ answer, (if (roleOf message).isText (text "tool") then
      toolMessageAnswer call fromEnd message content else some none) = some answer := by
    split_ifs
    · exact exists_toolMessageAnswer call fromEnd hwell.callId content
    · exact ⟨_, rfl⟩
  simp only [stringSlot, hanswer, Option.bind_some]
  cases answer with
  | some new => exact ⟨_, rfl⟩
  | none =>
      simp only [hread, Option.bind_some, hprotected, Option.map_some]
      split_ifs
      · exact ⟨_, rfl⟩
      · exact ⟨_, rfl⟩
      · exact ⟨_, rfl⟩

theorem exists_messageSlot (count index : ℕ) (hwell : WellFormed message)
    (state : RouterState K S) :
    ∃ result, messageSlot call count index message state = some result := by
  rw [messageSlot, hwell.isDict]
  simp only [Bool.not_true, Bool.false_eq_true, if_false]
  split_ifs
  · exact ⟨_, rfl⟩
  · cases hcontent : (message.get (text "content")).getD (.str []) with
    | list blocks =>
        obtain ⟨protectText, hprotect⟩ := exists_protectTextBlocks call hwell.role
        obtain ⟨⟨news, changed, after⟩, hchange⟩ := exists_changeBlocks call
          ((roleOf message).isText (text "tool")) protectText (count - index) index
          (hwell.blocks blocks (list_of_getD hcontent)) 0 state
        simp only [processContentBlocks, hprotect, hchange, bind, Option.bind_some, Option.map_some]
        exact ⟨_, rfl⟩
    | str content => exact exists_stringSlot call (count - index) index hwell content state
    | none => exact ⟨_, rfl⟩
    | number found => exact ⟨_, rfl⟩
    | dict entries => exact ⟨_, rfl⟩

theorem exists_firstPass (count : ℕ) (hwell : ∀ message ∈ messages, WellFormed message) (index : ℕ)
    (state : RouterState K S) :
    ∃ result, firstPass call count index messages state = some result := by
  induction messages generalizing index state with
  | nil => exact ⟨_, rfl⟩
  | cons message messages ih =>
      obtain ⟨hmessage, hrest⟩ := List.forall_mem_cons.mp hwell
      obtain ⟨⟨slot, between⟩, hslot⟩ := exists_messageSlot call count index hmessage state
      obtain ⟨⟨slots, after⟩, hslots⟩ := ih hrest (index + 1) between
      simp only [firstPass, hslot, hslots, bind, Option.bind_some]
      exact ⟨_, rfl⟩

theorem exists_routeMessages (hwell : ∀ message ∈ messages, WellFormed message)
    (state : RouterState K S) : ∃ result, routeMessages call messages state = some result := by
  obtain ⟨⟨slots, after⟩, hpass⟩ := exists_firstPass call messages.length hwell 0 state
  simp only [routeMessages, hpass, bind, Option.bind_some]
  exact ⟨_, rfl⟩

/-!
## Folds are kept in the frame

A text that the last pass folds is a text that may change: a string of a tool or of a read, a tool
result or its one text block.
-/

variable {K S : Type} {call : Call K S}

/-! ## Places of texts -/

/-- An item of a list content. -/
def partAt (value : Value) (part : ℕ) : Option Value :=
  (value.get (text "content")).bind fun content => content.asList.bind fun items => items[part]?
variable {value : Value} {items : List Value}

theorem partAt_of_get (hcontent : value.get (text "content") = some (.list items)) (part : ℕ) :
    partAt value part = items[part]? := by
  rw [partAt, hcontent]
  rfl

variable {item : Value} {part : ℕ}

theorem exists_of_partAt (hitem : partAt value part = some item) :
    ∃ items, value.get (text "content") = some (.list items) ∧ items[part]? = some item := by
  obtain ⟨content, hcontent, hitem⟩ := Option.bind_eq_some_iff.mp hitem
  obtain ⟨items, hitems, hitem⟩ := Option.bind_eq_some_iff.mp hitem
  cases content with
  | list found =>
      obtain rfl := Option.some_inj.mp hitems
      exact ⟨found, hcontent, hitem⟩
  | _ => cases hitems

/-- A tool result that may change. -/
structure OpenResult (call : Call K S) (messages : List Value) (index position : ℕ)
    (block : Value) : Prop where
  found : messages[index]?.bind (fun message => partAt message position) = some block
  isOpen : call.options.frozenMessageCount ≤ index
  type : hasType (text "tool_result") block = true
  uncached : hasCacheControl block = false

/-- A text that may change is at a location. -/
def Foldable (call : Call K S) (messages : List Value) : Location → Prop
  | .message index => ∃ message shown, messages[index]? = some message ∧
      call.options.frozenMessageCount ≤ index ∧
      message.get (text "content") = some (.str shown) ∧
      (keepsStrings call (roleOf message) && !isUserReadObservation call messages index) = false
  | .block index position => ∃ block shown, OpenResult call messages index position block ∧
      block.get (text "content") = some (.str shown)
  | .sub index position part => ∃ block item shown,
      OpenResult call messages index position block ∧ partAt block part = some item ∧
      hasType (text "text") item = true ∧ item.get (text "text") = some (.str shown)

/-! ## Targets -/

variable {messages : List Value} {index : ℕ}

theorem of_isReferenceOnly {idKey : Text}
    (hreference : isReferenceOnly call messages index value idKey = some false) :
    call.options.frozenMessageCount ≤ index ∧ hasCacheControl value = false := by
  rw [isReferenceOnly] at hreference
  split_ifs at hreference with hskip
  · cases hreference
  · rw [Bool.or_eq_true, not_or, decide_eq_true_iff, Bool.not_eq_true] at hskip
    exact ⟨not_lt.mp hskip.1, hskip.2⟩

variable {shown : Text}

theorem mem_textParts (hpart : (part, shown) ∈ textParts items) :
    ∃ item, items[part]? = some item ∧ hasType (text "text") item = true ∧
      item.get (text "text") = some (.str shown) := by
  obtain ⟨⟨item, place⟩, hitem, heq⟩ := List.mem_filterMap.mp hpart
  dsimp only at heq
  split at heq
  next char rest htype hshown =>
    obtain ⟨rfl, rfl⟩ := Prod.mk.inj (Option.some_inj.mp heq)
    exact ⟨item, List.mem_zipIdx_iff_getElem?.mp hitem, htype, hshown⟩
  next => cases heq

variable {position : ℕ} {block : Value}
variable {found : List (Location × CrossTurnDedup.DedupBlock)}

theorem blockTarget_foldable
    (hblock : messages[index]?.bind (fun message => partAt message position) = some block)
    (htarget : blockTarget call messages index (block, position) = some found) :
    ∀ target ∈ found, target.2.isProtected = false → Foldable call messages target.1 := by
  intro target hmem hopen
  rw [blockTarget] at htarget
  split_ifs at htarget with htype
  · obtain rfl := Option.some_inj.mp htarget
    cases hmem
  · rw [Bool.not_eq_true', Bool.not_eq_false] at htype
    obtain ⟨isProtected, hreference, htarget⟩ := Option.bind_eq_some_iff.mp htarget
    have hresult (hprotected : isProtected = false) :
        OpenResult call messages index position block := by
      rw [hprotected] at hreference
      obtain ⟨hindex, huncached⟩ := of_isReferenceOnly hreference
      exact ⟨hblock, hindex, htype, huncached⟩
    split at htarget
    next char shown hcontent =>
      obtain rfl := Option.some_inj.mp htarget
      rw [List.mem_singleton.mp hmem] at hopen ⊢
      exact ⟨block, char :: shown, hresult hopen, hcontent⟩
    next items hcontent =>
      split at htarget
      next part shown hparts =>
        obtain rfl := Option.some_inj.mp htarget
        rw [List.mem_singleton.mp hmem] at hopen ⊢
        obtain ⟨item, hitem, htext, hshown⟩ := mem_textParts (hparts ▸ List.mem_cons_self)
        exact ⟨block, item, shown, hresult hopen, (partAt_of_get hcontent part).trans hitem, htext,
          hshown⟩
      next =>
        obtain rfl := Option.some_inj.mp htarget
        cases hmem
    next =>
      obtain rfl := Option.some_inj.mp htarget
      cases hmem

variable {message : Value}

theorem messageTargets_foldable (hmessage : messages[index]? = some message)
    (htarget : messageTargets call messages (message, index) = some found) :
    ∀ target ∈ found, target.2.isProtected = false → Foldable call messages target.1 := by
  intro target hmem hopen
  obtain ⟨-, htarget⟩ := Option.ite_none_left_eq_some.mp htarget
  split at htarget
  next blocks hcontent =>
    obtain ⟨targets, hread, rfl⟩ := Option.map_eq_some_iff.mp htarget
    obtain ⟨list, hlist, hin⟩ := List.mem_flatten.mp hmem
    obtain ⟨⟨block, position⟩, hblock, htarget⟩ := (mem_of_mapM hread).mp hlist
    have hfound : messages[index]?.bind (fun message => partAt message position) = some block := by
      rw [hmessage, Option.bind_some, partAt_of_get hcontent]
      exact List.mem_zipIdx_iff_getElem?.mp hblock
    exact blockTarget_foldable hfound htarget target hin hopen
  next char shown hcontent =>
    split_ifs at htarget with hrole
    · obtain ⟨isProtected, hreference, rfl⟩ := Option.map_eq_some_iff.mp htarget
      rw [List.mem_singleton.mp hmem] at hopen ⊢
      rw [show isProtected = false from hopen] at hreference
      refine ⟨message, char :: shown, hmessage, (of_isReferenceOnly hreference).1, hcontent, ?_⟩
      rcases Bool.or_eq_true _ _ ▸ hrole with hresult | hread
      · rw [keepsStrings_result hresult]
        rfl
      · rw [Bool.and_eq_true] at hread
        rw [hread.2, Bool.not_true, Bool.and_false]
    · obtain rfl := Option.some_inj.mp htarget
      cases hmem
  next =>
    obtain rfl := Option.some_inj.mp htarget
    cases hmem

variable {changes : List (Location × Text)}

theorem dedupChanges_foldable (hchanges : dedupChanges call messages = some changes) :
    ∀ change ∈ changes, Foldable call messages change.1 := by
  intro change hmem
  obtain ⟨targets, hread, hchanges⟩ := Option.bind_eq_some_iff.mp hchanges
  obtain ⟨lists, hlists, rfl⟩ := Option.map_eq_some_iff.mp hread
  dsimp only at hchanges
  split_ifs at hchanges
  · obtain rfl := Option.some_inj.mp hchanges
    cases hmem
  · obtain rfl := Option.some_inj.mp hchanges
    obtain ⟨⟨⟨location, block⟩, emitted⟩, hzip, heq⟩ := List.mem_filterMap.mp hmem
    dsimp only at heq
    split_ifs at heq with hskip
    obtain rfl := Option.some_inj.mp heq
    rw [Bool.or_eq_true, not_or, Bool.not_eq_true] at hskip
    obtain ⟨list, hlist, hin⟩ := List.mem_flatten.mp (List.of_mem_zip hzip).1
    obtain ⟨⟨message, index⟩, hmessage, htarget⟩ := (mem_of_mapM hlists).mp hlist
    exact messageTargets_foldable (List.mem_zipIdx_iff_getElem?.mp hmessage) htarget _ hin hskip.1

/-! ## Rewritten items -/

theorem map_mapIdx_congr {α β : Type} {items : List α} {rewrite : ℕ → α → α} {view : α → β}
    (hsame : ∀ index item, items[index]? = some item → view (rewrite index item) = view item) :
    (items.mapIdx rewrite).map view = items.map view := by
  apply List.ext_getElem?
  intro index
  rw [List.getElem?_map, List.getElem?_map, List.getElem?_mapIdx, Option.map_map]
  cases hitem : items[index]? with
  | none => rfl
  | some item => exact congrArg some (hsame index item hitem)

theorem mapIdx_eq_self {α : Type} {items : List α} {rewrite : ℕ → α → α}
    (hsame : ∀ index item, items[index]? = some item → rewrite index item = item) :
    items.mapIdx rewrite = items := by
  have hmap : (items.mapIdx rewrite).map id = items.map id := map_mapIdx_congr hsame
  rwa [List.map_id, List.map_id] at hmap

theorem forall_mem_mapIdx {α : Type} {items : List α} {rewrite : ℕ → α → α} {holds : α → Prop}
    (hholds : ∀ index item, items[index]? = some item → holds (rewrite index item)) :
    ∀ item ∈ items.mapIdx rewrite, holds item := by
  intro item hitem
  obtain ⟨index, hindex, rfl⟩ := List.mem_mapIdx.mp hitem
  exact hholds index items[index] (List.getElem?_eq_getElem hindex)

theorem eraseSub_put {old : Text} (htype : hasType (text "text") item = true)
    (hcache : hasCacheControl item = false) (hold : item.get (text "text") = some (.str old)) :
    eraseSub (item.put (text "text") (.str shown)) = eraseSub item := by
  have hshown : (item.put (text "text") (.str shown)).get (text "text") = some (.str shown) :=
    (Value.get_put (isDict_of_hasType htype) _ _ _).trans (if_pos rfl)
  have htypes : hasType (text "text") (item.put (text "text") (.str shown)) = true :=
    (hasType_put (by decide) _ _).trans htype
  have hcaches : hasCacheControl (item.put (text "text") (.str shown)) = false :=
    (hasCacheControl_put (by decide) _).trans hcache
  have htwice := Value.put_put item (text "text") (.str shown) (.str [])
  cases item with
  | dict entries =>
      rw [Value.put] at hshown htypes hcaches htwice ⊢
      unfold eraseSub
      rw [htypes, hcaches, htype, hcache, hshown, hold]
      simp only [Bool.not_false, Bool.and_self, Value.length_setEntry hold]
      rw [htwice]
  | _ => cases htype

/-- A location that may be rewritten is one that may change. -/
def ChangesFold (call : Call K S) (messages : List Value) (changes : List (Location × Text)) :
    Prop :=
  ∀ change ∈ changes, Foldable call messages change.1

theorem foldable_of_lookup (hchanges : ChangesFold call messages changes) {location : Location}
    (hlookup : changes.lookup location = some shown) : Foldable call messages location := by
  obtain ⟨before, after, hsplit, -⟩ := List.lookup_eq_some_iff.mp hlookup
  exact hchanges (location, shown) (hsplit ▸ List.mem_append_right before List.mem_cons_self)

theorem OpenResult.unique {other : Value} (hopen : OpenResult call messages index position other)
    (hmessage : messages[index]? = some message) (hblock : partAt message position = some block) :
    block = other ∧ OpenResult call messages index position other := by
  have hfound := hopen.found
  rw [hmessage, Option.bind_some, hblock] at hfound
  exact ⟨Option.some_inj.mp hfound, hopen⟩

theorem hasType_rewriteItem (changes : List (Location × Text)) (index position part : ℕ)
    (item : Value) (type : Text) :
    hasType type (rewriteItem changes index position part item) = hasType type item := by
  rw [rewriteItem]
  split
  · exact hasType_put (by decide) _ _
  · rfl

theorem hasCacheControl_rewriteItem (changes : List (Location × Text)) (index position part : ℕ)
    (item : Value) :
    hasCacheControl (rewriteItem changes index position part item) = hasCacheControl item := by
  rw [rewriteItem]
  split
  · exact hasCacheControl_put (by decide) _
  · rfl

/-- An item that a fold may change. -/
def FoldsItem (changes : List (Location × Text)) (index position part : ℕ) (item : Value) : Prop :=
  (changes.lookup (.sub index position part)).isSome = true →
    hasType (text "text") item = true ∧ ∃ old, item.get (text "text") = some (.str old)

theorem eraseSub_rewriteItem (hfolds : FoldsItem changes index position part item)
    (huncached : hasType (text "text") item = true → hasCacheControl item = false) :
    eraseSub (rewriteItem changes index position part item) = eraseSub item := by
  rw [rewriteItem]
  cases hlookup : changes.lookup (.sub index position part) with
  | none => rfl
  | some shown =>
      obtain ⟨htype, old, hold⟩ := hfolds (by rw [hlookup]; rfl)
      exact eraseSub_put htype (huncached htype) hold

theorem isListForm_congr {others : List Value}
    (htypes : others.map (hasType (text "text")) = items.map (hasType (text "text"))) :
    isListForm (.list others) = isListForm (.list items) := by
  have hform (items : List Value) : isListForm (.list items) =
      (!(items.map (hasType (text "text"))).isEmpty &&
        (items.map (hasType (text "text"))).all id) := by
    rw [isListForm, List.isEmpty_map, List.all_map]
    rfl
  rw [hform, hform, htypes]

theorem plainItems_rewriteItem (hplain : PlainItems items) :
    PlainItems (items.mapIdx (rewriteItem changes index position)) where
  uncached := forall_mem_mapIdx fun part item hitem htype => by
    rw [hasType_rewriteItem] at htype
    rw [hasCacheControl_rewriteItem]
    exact hplain.uncached item (List.mem_of_getElem? hitem) htype
  single hform := by
    have htypes : (items.mapIdx (rewriteItem changes index position)).map (hasType (text "text")) =
        items.map (hasType (text "text")) :=
      map_mapIdx_congr fun part item _ => hasType_rewriteItem changes index position part item _
    have hold : isListForm (.list items) = true := (isListForm_congr htypes).symm.trans hform
    obtain ⟨entries, shown, rfl, hlength, hshown⟩ := hplain.single hold
    rw [List.mapIdx_cons, List.mapIdx_nil, rewriteItem]
    cases changes.lookup (.sub index position 0) with
    | none => exact ⟨entries, shown, rfl, hlength, hshown⟩
    | some new =>
        exact ⟨setEntry (text "text") (.str new) entries, new, rfl,
          (Value.length_setEntry hshown _).trans hlength,
          (Value.lookup_setEntry _ _ _ _).trans (if_pos rfl)⟩

/-! ## Rewritten messages -/

theorem rewriteBlock_kept (hchanges : ChangesFold call messages changes)
    (hmessage : messages[index]? = some message) (hblock : partAt message position = some block)
    (hplain : PlainBlock block) (protectText : Bool) :
    Kept protectText block (rewriteBlock changes index position block) := by
  rw [rewriteBlock]
  cases hlookup : changes.lookup (.block index position) with
  | some shown =>
      obtain ⟨other, old, hresult, hold⟩ := foldable_of_lookup hchanges hlookup
      obtain ⟨rfl, hresult⟩ := hresult.unique hmessage hblock
      exact kept_put_text protectText hresult.uncached hresult.type hold
  | none =>
      dsimp only
      split
      next items hcontent =>
        by_cases hany : ∃ part, (changes.lookup (.sub index position part)).isSome = true
        · obtain ⟨part, hsome⟩ := hany
          obtain ⟨shown, hlookup⟩ := Option.isSome_iff_exists.mp hsome
          obtain ⟨other, item, old, hresult, -⟩ := foldable_of_lookup hchanges hlookup
          obtain ⟨rfl, hresult⟩ := hresult.unique hmessage hblock
          have hitems : PlainItems items := hplain hresult.uncached hresult.type items hcontent
          refine ⟨eraseBlock_put_items protectText hresult.uncached hresult.type hcontent
            (map_mapIdx_congr fun part item hitem => ?_), ?_⟩
          · refine eraseSub_rewriteItem (fun hsome => ?_)
              (hitems.uncached item (List.mem_of_getElem? hitem))
            obtain ⟨shown, hlookup⟩ := Option.isSome_iff_exists.mp hsome
            obtain ⟨other, found, old, hother, hfound, htype, hold⟩ :=
              foldable_of_lookup hchanges hlookup
            obtain ⟨rfl, -⟩ := hother.unique hmessage hblock
            rw [partAt_of_get hcontent, hitem, Option.some_inj] at hfound
            rw [hfound]
            exact ⟨htype, old, hold⟩
          · intro _ _ others hothers
            rw [Value.get_put (isDict_of_hasType hresult.type), if_pos rfl] at hothers
            cases hothers
            exact plainItems_rewriteItem hitems
        · have hnone (part : ℕ) : changes.lookup (.sub index position part) = none :=
            Option.not_isSome_iff_eq_none.mp fun hsome => hany ⟨part, hsome⟩
          rw [mapIdx_eq_self fun part item _ => by rw [rewriteItem, hnone], Value.put_self hcontent]
          exact ⟨rfl, hplain⟩
      next => exact ⟨rfl, hplain⟩

theorem rewriteMessage_kept (hchanges : ChangesFold call messages changes)
    (hmessage : messages[index]? = some message) (hindex : call.options.frozenMessageCount ≤ index)
    (hplain : PlainMessage message) :
    KeptMessage call (isUserReadObservation call messages index) index message
      (rewriteMessage changes index message) := by
  rw [rewriteMessage]
  split
  next blocks hcontent =>
    have hkept (position : ℕ) (block : Value) (hblock : blocks[position]? = some block) :
        Kept (keepsTextBlocks call (roleOf message)) block
          (rewriteBlock changes index position block) :=
      rewriteBlock_kept hchanges hmessage ((partAt_of_get hcontent position).trans hblock)
        (hplain blocks hcontent block (List.mem_of_getElem? hblock)) _
    exact kept_put_blocks hcontent hindex
      (map_mapIdx_congr fun position block hblock => (hkept position block hblock).1)
      (forall_mem_mapIdx fun position block hblock => (hkept position block hblock).2)
  next =>
    cases hlookup : changes.lookup (.message index) with
    | none => exact ⟨rfl, hplain⟩
    | some shown =>
        obtain ⟨other, old, hother, -, hold, hopen⟩ := foldable_of_lookup hchanges hlookup
        rw [hmessage] at hother
        obtain rfl := Option.some_inj.mp hother
        exact kept_put_string hold hindex hopen

/-- A frozen message has no text that is folded. -/
theorem rewriteMessage_frozen (hchanges : ChangesFold call messages changes)
    (hless : index < call.options.frozenMessageCount) (message : Value) :
    rewriteMessage changes index message = message := by
  have hmessage : changes.lookup (.message index) = none :=
    Option.eq_none_iff_forall_ne_some.mpr fun shown hlookup =>
      let ⟨_, _, _, hindex, _⟩ := foldable_of_lookup hchanges hlookup
      absurd hless (not_lt.mpr hindex)
  have hblock (position : ℕ) : changes.lookup (.block index position) = none :=
    Option.eq_none_iff_forall_ne_some.mpr fun shown hlookup =>
      let ⟨_, _, hresult, _⟩ := foldable_of_lookup hchanges hlookup
      absurd hless (not_lt.mpr hresult.isOpen)
  have hsub (position part : ℕ) : changes.lookup (.sub index position part) = none :=
    Option.eq_none_iff_forall_ne_some.mpr fun shown hlookup =>
      let ⟨_, _, _, hresult, _⟩ := foldable_of_lookup hchanges hlookup
      absurd hless (not_lt.mpr hresult.isOpen)
  have hitem (position part : ℕ) (item : Value) :
      rewriteItem changes index position part item = item := by
    rw [rewriteItem, hsub]
  have hblocks (position : ℕ) (block : Value) :
      rewriteBlock changes index position block = block := by
    rw [rewriteBlock, hblock]
    dsimp only
    split
    next items hcontent =>
      rw [mapIdx_eq_self fun part item _ => hitem position part item, Value.put_self hcontent]
    next => rfl
  rw [rewriteMessage]
  split
  next blocks hcontent =>
    rw [mapIdx_eq_self fun position block _ => hblocks position block, Value.put_self hcontent]
  next =>
    rw [hmessage]
    rfl

end Legroom.RouterApply
