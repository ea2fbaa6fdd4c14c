import Legroom.Transforms.LosslessSections
import Legroom.Transforms.RouterApply

/-!
# What the router leaves alone

The texts that may change are erased.  What is left of a message is the same before and behind
the router.
-/

namespace Legroom.RouterApply

open Python BlockDecisions Ccr

/-! ## Erased texts -/

/-- A text block in a tool result, without its text. -/
def eraseSub (item : Value) : Value :=
  match hasType (text "text") item && !hasCacheControl item, item, item.get (text "text") with
  | true, .dict entries, some (.str _) =>
      -- Two entries are the type and the text, in either order.
      if entries.length = 2 then
        .dict [(text "type", .str (text "text")), (text "text", .str [])]
      else item.put (text "text") (.str [])
  | _, _, _ => item

def eraseBlock (protectText : Bool) (block : Value) : Value :=
  if hasCacheControl block then block
  else if hasType (text "tool_result") block then
    match block.get (text "content") with
    | some (.str _) => block.put (text "content") (.str [])
    | some (.list items) => block.put (text "content") (.list (items.map eraseSub))
    | _ => block
  else if hasType (text "text") block && !protectText then
    match block.get (text "text") with
    | some (.str _) => block.put (text "text") (.str [])
    | _ => block
  else block

section

variable {K S : Type} (call : Call K S)

/-- Whether strings of a role stay as they are; an unhashable role raises. -/
def keepsStrings (role : Value) : Bool := (isProtectedRole call role).getD true

def keepsTextBlocks (role : Value) : Bool := (protectTextBlocks call role).getD true

/-- A message without the texts that may change; a kept string may change where it is open. -/
def eraseMessage (isOpen : Bool) (index : ℕ) (message : Value) : Value :=
  if index < call.options.frozenMessageCount then message
  else
    match message.get (text "content") with
    | some (.str _) =>
        if keepsStrings call (roleOf message) && !isOpen then message
        else message.put (text "content") (.str [])
    | some (.list blocks) =>
        message.put (text "content")
          (.list (blocks.map (eraseBlock (keepsTextBlocks call (roleOf message)))))
    | _ => message

/-! ## Plain contents -/

/-- A list of text blocks is one block with a type and a text, and no text block in a list has a
cache breakpoint. -/
structure PlainItems (items : List Value) : Prop where
  uncached : ∀ item ∈ items, hasType (text "text") item = true → hasCacheControl item = false
  single : isListForm (.list items) = true → ∃ entries shown, items = [.dict entries] ∧
    entries.length = 2 ∧ (Value.dict entries).get (text "text") = some (.str shown)

def PlainBlock (block : Value) : Prop :=
  hasCacheControl block = false → hasType (text "tool_result") block = true →
    ∀ items, block.get (text "content") = some (.list items) → PlainItems items

def PlainMessage (message : Value) : Prop :=
  ∀ blocks, message.get (text "content") = some (.list blocks) →
    ∀ block ∈ blocks, PlainBlock block

/-! ## Changes of blocks -/

variable {item : Value}

theorem isDict_of_hasType {type : Text} (htype : hasType type item = true) :
    item.isDict = true := by
  cases item with
  | dict entries => rfl
  | _ => cases htype

theorem hasType_put {key : Text} (hkey : key ≠ text "type") (type : Text) (new : Value) :
    hasType type (item.put key new) = hasType type item := by
  cases item with
  | dict entries =>
      rw [hasType, hasType, Value.get_put rfl, if_neg (Ne.symm hkey)]
  | _ => rfl

theorem hasCacheControl_put {key : Text} (hkey : key ≠ text "cache_control") (new : Value) :
    hasCacheControl (item.put key new) = hasCacheControl item := by
  cases item with
  | dict entries =>
      rw [hasCacheControl, hasCacheControl, Value.get_put rfl, if_neg (Ne.symm hkey)]
  | _ => rfl

variable {block : Value} {shown : Text}
variable (protectText : Bool)

theorem eraseBlock_put_text {other : Text} (hcache : hasCacheControl block = false)
    (htype : hasType (text "tool_result") block = true)
    (hcontent : block.get (text "content") = some (.str shown)) :
    eraseBlock protectText (block.put (text "content") (.str other)) =
      eraseBlock protectText block := by
  have hdict := isDict_of_hasType htype
  rw [eraseBlock, eraseBlock, hasCacheControl_put (by decide), hcache, hasType_put (by decide),
    htype, Value.get_put hdict, if_pos rfl, hcontent]
  simp only [Bool.false_eq_true, if_false, if_true, Value.put_put]

variable {items : List Value}

theorem eraseBlock_put_items {others : List Value} (hcache : hasCacheControl block = false)
    (htype : hasType (text "tool_result") block = true)
    (hcontent : block.get (text "content") = some (.list items))
    (hsame : others.map eraseSub = items.map eraseSub) :
    eraseBlock protectText (block.put (text "content") (.list others)) =
      eraseBlock protectText block := by
  have hdict := isDict_of_hasType htype
  rw [eraseBlock, eraseBlock, hasCacheControl_put (by decide), hcache, hasType_put (by decide),
    htype, Value.get_put hdict, if_pos rfl, hcontent]
  simp only [Bool.false_eq_true, if_false, if_true, Value.put_put, hsame]

theorem eraseBlock_textBlock {other : Text} (htype : hasType (text "text") block = true)
    (hcontent : block.get (text "text") = some (.str shown))
    (hcache : hasCacheControl block = false) (hother : hasType (text "tool_result") block = false) :
    eraseBlock false (block.put (text "text") (.str other)) = eraseBlock false block := by
  have hdict := isDict_of_hasType htype
  rw [eraseBlock, eraseBlock, hasCacheControl_put (by decide), hcache, hasType_put (by decide),
    hasType_put (by decide), hother, htype]
  simp only [Bool.false_eq_true, if_false, if_true, Bool.not_false, Bool.and_self]
  rw [Value.get_put hdict, if_pos rfl, hcontent]
  exact Value.put_put block _ _ _

/-! ## Single texts -/

theorem isListForm_eq (hform : isListForm (.list items) = true) :
    items.all (hasType (text "text")) = true := by
  rw [isListForm, Bool.and_eq_true] at hform
  exact hform.2

theorem eraseSub_pair {entries : List (Text × Value)}
    (htype : hasType (text "text") (.dict entries) = true)
    (hcache : hasCacheControl (.dict entries) = false) (hlength : entries.length = 2)
    (hshown : (Value.dict entries).get (text "text") = some (.str shown)) :
    eraseSub (.dict entries) =
      .dict [(text "type", .str (text "text")), (text "text", .str [])] := by
  unfold eraseSub
  rw [htype, hcache, hshown]
  exact if_pos hlength

/-- A list of one plain text block is erased like the list that takes its place. -/
theorem eraseSub_rewrap (hplain : PlainItems items) (hform : isListForm (.list items) = true)
    (shown : Text) :
    [Value.dict [(text "type", .str (text "text")), (text "text", .str shown)]].map eraseSub =
      items.map eraseSub := by
  obtain ⟨entries, old, rfl, hlength, hold⟩ := hplain.single hform
  have htype : hasType (text "text") (.dict entries) = true :=
    List.all_eq_true.mp (isListForm_eq hform) _ List.mem_cons_self
  have hcache := hplain.uncached _ List.mem_cons_self htype
  rw [List.map_singleton, List.map_singleton, eraseSub_pair htype hcache hlength hold]
  rfl

theorem plainItems_rewrap (shown : Text) :
    PlainItems [.dict [(text "type", .str (text "text")), (text "text", .str shown)]] where
  uncached item hitem _ := by
    rw [List.mem_singleton.mp hitem]
    rfl
  single _ := ⟨_, shown, rfl, rfl, rfl⟩

/-- A changed block is the same without its text, and it is plain again. -/
def Kept (protectText : Bool) (block new : Value) : Prop :=
  eraseBlock protectText new = eraseBlock protectText block ∧ PlainBlock new

theorem plainBlock_of_text (hdict : block.isDict = true) :
    PlainBlock (block.put (text "content") (.str shown)) := by
  intro _ _ items hitems
  rw [Value.get_put hdict, if_pos rfl] at hitems
  cases hitems

theorem kept_put_text {old : Text} (hcache : hasCacheControl block = false)
    (htype : hasType (text "tool_result") block = true)
    (hcontent : block.get (text "content") = some (.str old)) :
    Kept protectText block (block.put (text "content") (.str shown)) :=
  ⟨eraseBlock_put_text protectText hcache htype hcontent,
    plainBlock_of_text (isDict_of_hasType htype)⟩

theorem kept_rewrap (hcache : hasCacheControl block = false)
    (htype : hasType (text "tool_result") block = true) (hplain : PlainBlock block)
    (hcontent : block.get (text "content") = some (.list items))
    (hform : isListForm (.list items) = true) (shown : Text) :
    Kept protectText block (block.put (text "content") (rewrap (.list items) shown)) := by
  rw [rewrap, if_pos hform]
  refine ⟨eraseBlock_put_items protectText hcache htype hcontent
    (eraseSub_rewrap (hplain hcache htype items hcontent) hform shown), ?_⟩
  intro _ _ others hothers
  rw [Value.get_put (isDict_of_hasType htype), if_pos rfl] at hothers
  cases hothers
  exact plainItems_rewrap shown

end

/-! ## Tool results and text blocks -/

section

variable {K S : Type} [DecidableEq K] {call : Call K S}

omit [DecidableEq K] in
theorem isLong_nil : isLong call [] = false := by
  rw [isLong, hasLosslessFold]
  rcases @LosslessRouter.losslessFirst_cases call.tables [] .passthrough with
    hnone | ⟨kind, -, hshorter⟩
  · rw [hnone]
    rfl
  · cases hshorter

variable {index position : ℕ} {block : Value} {shown : Text} {state : RouterState K S}

theorem ne_nil_of_toolText {id : Value} {new : Text}
    (hchange : (toolText call index position id block shown state).1 = some new) : shown ≠ [] := by
  rintro rfl
  rw [toolText, bashSearchFold, if_pos (by decide), isLong_nil] at hchange
  simp only [Bool.not_false, Bool.or_true, Bool.true_or, if_true] at hchange
  cases hchange

variable {key : Text}

/-- A default that is empty is not what a text is taken from. -/
theorem get_of_getD (hne : shown ≠ []) (hshown : (block.get key).getD (.str []) = .str shown) :
    block.get key = some (.str shown) := by
  cases hget : block.get key with
  | none =>
      rw [hget] at hshown
      exact absurd (Value.str.inj hshown).symm hne
  | some found =>
      rw [hget] at hshown
      exact congrArg some hshown

theorem list_of_getD {items : List Value} (hitems : (block.get key).getD (.str []) = .list items) :
    block.get key = some (.list items) := by
  cases hget : block.get key with
  | none =>
      rw [hget] at hitems
      cases hitems
  | some found =>
      rw [hget] at hitems
      exact congrArg some hitems

theorem asText_eq {value : Value} (hshown : value.asText = some shown) : value = .str shown := by
  cases value with
  | str found => exact congrArg Value.str (Option.some_inj.mp hshown)
  | _ => cases hshown

/-- A text that is looked at comes from a string or from a list of texts. -/
theorem flatten_cases {content : Value} (hflat : flatten content = some (.str shown)) :
    content = .str shown ∨ ∃ items, content = .list items ∧ isListForm (.list items) = true := by
  cases content with
  | list items =>
      rw [flatten] at hflat
      split_ifs at hflat with hform
      · exact Or.inr ⟨items, rfl, hform⟩
      · cases hflat
  | str found => exact Or.inl (Option.some_inj.mp hflat)
  | none => cases hflat
  | number found => cases hflat
  | dict entries => cases hflat

variable {fromEnd : ℕ} {new : Value} {after : RouterState K S}

theorem toolResultChange_kept (protectText : Bool) (hcache : hasCacheControl block = false)
    (htype : hasType (text "tool_result") block = true) (hplain : PlainBlock block)
    (hchange : toolResultChange call fromEnd index position block state = some (some new, after)) :
    Kept protectText block new := by
  simp only [toolResultChange, bind, Option.bind_eq_some_iff] at hchange
  obtain ⟨flat, hflat, hchange⟩ := hchange
  split_ifs at hchange
  · cases hchange
  · cases hchange
  · -- An excluded output is long, so it is not the default.
    rw [Option.some_inj, Prod.mk.injEq, Option.map_eq_some_iff] at hchange
    obtain ⟨⟨folded, hfolded, rfl⟩, -⟩ := hchange
    obtain ⟨shown, hshown, hlong⟩ := Option.bind_eq_some_iff.mp hfolded
    have hne : shown ≠ [] := by
      rintro rfl
      cases hlong
    exact kept_put_text protectText hcache htype (get_of_getD hne (asText_eq hshown))
  · cases flat with
    | str shown =>
        dsimp only at hchange
        rw [Option.some_inj, Prod.mk.injEq, Option.map_eq_some_iff] at hchange
        obtain ⟨⟨changed, hchanged, rfl⟩, -⟩ := hchange
        have hne := ne_nil_of_toolText hchanged
        rcases flatten_cases hflat with hstring | ⟨items, hitems, hform⟩
        · rw [hstring, rewrap, if_neg nofun]
          exact kept_put_text protectText hcache htype (get_of_getD hne hstring)
        · rw [hitems]
          exact kept_rewrap protectText hcache htype hplain (list_of_getD hitems) hform changed
    | none => cases hchange
    | number found => cases hchange
    | list items => cases hchange
    | dict entries => cases hchange

variable {isTool : Bool}

theorem textBlockChange_kept (hcache : hasCacheControl block = false)
    (hother : hasType (text "tool_result") block = false)
    (htype : hasType (text "text") block = true)
    (hchange : (textBlockChange call isTool index position block state).1 = some new) :
    Kept false block new := by
  rw [textBlockChange] at hchange
  cases hshown : (block.get (text "text")).getD (.str []) with
  | str shown =>
      rw [hshown] at hchange
      dsimp only at hchange
      split_ifs at hchange with hshort
      · obtain ⟨changed, -, rfl⟩ := Option.map_eq_some_iff.mp hchange
        have hne : shown ≠ [] := by
          rintro rfl
          rw [isLong_nil] at hshort
          exact hshort rfl
        refine ⟨eraseBlock_textBlock htype (get_of_getD hne hshown) hcache hother, ?_⟩
        intro _ hresult
        rw [hasType_put (by decide), hother] at hresult
        cases hresult
  | none => rw [hshown] at hchange; cases hchange
  | number found => rw [hshown] at hchange; cases hchange
  | list items => rw [hshown] at hchange; cases hchange
  | dict entries => rw [hshown] at hchange; cases hchange

variable {protectText : Bool}

theorem blockChange_kept (hplain : PlainBlock block)
    (hchange : blockChange call isTool protectText fromEnd index position block state =
      some (some new, after)) : Kept protectText block new := by
  rw [blockChange] at hchange
  split_ifs at hchange with hskip hresult htext
  · cases hchange
  · rw [Bool.or_eq_true, not_or, Bool.not_eq_true, Bool.not_eq_true] at hskip
    exact toolResultChange_kept protectText hskip.2 hresult hplain hchange
  · rw [Bool.or_eq_true, not_or, Bool.not_eq_true, Bool.not_eq_true] at hskip
    rw [Bool.and_eq_true, Bool.not_eq_true'] at htext
    rw [htext.2]
    exact textBlockChange_kept hskip.2 (Bool.eq_false_iff.mpr hresult) htext.1
      (congrArg Prod.fst (Option.some_inj.mp hchange))
  · cases hchange

variable {blocks : List Value}
variable {news : List Value}

/-- The blocks of a message, one by one. -/
theorem changeBlocks_kept (hplain : ∀ block ∈ blocks, PlainBlock block) {changed : Bool}
    (hchange : changeBlocks call isTool protectText fromEnd index position blocks state =
      some (news, changed, after)) :
    news.map (eraseBlock protectText) = blocks.map (eraseBlock protectText) ∧
      ∀ block ∈ news, PlainBlock block := by
  induction blocks generalizing position state news changed after with
  | nil =>
      cases hchange
      exact ⟨rfl, fun block hblock => absurd hblock List.not_mem_nil⟩
  | cons block blocks ih =>
      obtain ⟨hblock, hblocks⟩ := List.forall_mem_cons.mp hplain
      simp only [changeBlocks, bind, Option.bind_eq_some_iff] at hchange
      obtain ⟨⟨change, between⟩, hfirst, ⟨rest, others, behind⟩, hrest, hnews⟩ := hchange
      obtain ⟨rfl, -⟩ := Prod.mk.inj (Option.some_inj.mp hnews)
      obtain ⟨hsame, hkept⟩ := ih hblocks hrest
      have hnew : Kept protectText block (change.getD block) := by
        cases change with
        | none => exact ⟨rfl, hblock⟩
        | some new => exact blockChange_kept hblock hfirst
      rw [List.map_cons, List.map_cons, hsame, hnew.1]
      exact ⟨rfl, List.forall_mem_cons.mpr ⟨hnew.2, hkept⟩⟩

/-! ## Messages -/

/-- A changed message is the same without its texts, and it is plain again. -/
def KeptMessage (call : Call K S) (isOpen : Bool) (index : ℕ) (message new : Value) : Prop :=
  eraseMessage call isOpen index new = eraseMessage call isOpen index message ∧ PlainMessage new

variable {message : Value}

omit [DecidableEq K] in
theorem roleOf_put (hkey : key ≠ text "role") (new : Value) :
    roleOf (message.put key new) = roleOf message := by
  cases message with
  | dict entries => rw [roleOf, roleOf, Value.get_put rfl, if_neg (Ne.symm hkey)]
  | _ => rfl

variable {isOpen : Bool}

omit [DecidableEq K] in
theorem kept_put_string {old : Text} (hcontent : message.get (text "content") = some (.str old))
    (hindex : call.options.frozenMessageCount ≤ index)
    (hopen : (keepsStrings call (roleOf message) && !isOpen) = false) :
    KeptMessage call isOpen index message (message.put (text "content") (.str shown)) := by
  have hdict := Value.isDict_of_get hcontent
  refine ⟨?_, fun blocks hblocks => ?_⟩
  · rw [eraseMessage, eraseMessage, if_neg (not_lt.mpr hindex), if_neg (not_lt.mpr hindex),
      roleOf_put (by decide), Value.get_put hdict, if_pos rfl, hcontent]
    simp only [hopen, Bool.false_eq_true, if_false, Value.put_put]
  · rw [Value.get_put hdict, if_pos rfl] at hblocks
    cases hblocks

omit [DecidableEq K] in
theorem kept_put_blocks (hcontent : message.get (text "content") = some (.list blocks))
    (hindex : call.options.frozenMessageCount ≤ index)
    (hsame : news.map (eraseBlock (keepsTextBlocks call (roleOf message))) =
      blocks.map (eraseBlock (keepsTextBlocks call (roleOf message))))
    (hplain : ∀ block ∈ news, PlainBlock block) :
    KeptMessage call isOpen index message (message.put (text "content") (.list news)) := by
  have hdict := Value.isDict_of_get hcontent
  refine ⟨?_, fun others hothers => ?_⟩
  · rw [eraseMessage, eraseMessage, if_neg (not_lt.mpr hindex), if_neg (not_lt.mpr hindex),
      roleOf_put (by decide), Value.get_put hdict, if_pos rfl, hcontent]
    simp only [hsame, Value.put_put]
  · rw [Value.get_put hdict, if_pos rfl] at hothers
    cases hothers
    exact hplain

theorem processContentBlocks_kept (hplain : PlainMessage message)
    (hcontent : message.get (text "content") = some (.list blocks))
    (hindex : call.options.frozenMessageCount ≤ index)
    (hprocess : processContentBlocks call fromEnd index message blocks state = some (new, after)) :
    KeptMessage call isOpen index message new := by
  simp only [processContentBlocks, bind, Option.bind_eq_some_iff] at hprocess
  obtain ⟨protectText, hprotect, ⟨news, changed, behind⟩, hchange, hnew⟩ := hprocess
  obtain ⟨rfl, -⟩ := Prod.mk.inj (Option.some_inj.mp hnew)
  dsimp only
  split_ifs
  · obtain ⟨hsame, hkept⟩ := changeBlocks_kept (hplain blocks hcontent) hchange
    have hkeeps : keepsTextBlocks call (roleOf message) = protectText := by
      rw [keepsTextBlocks, hprotect]
      rfl
    exact kept_put_blocks hcontent hindex (hkeeps ▸ hsame) hkept
  · exact ⟨rfl, hplain⟩

/-- What a slot holds for a message. -/
def SlotKept (call : Call K S) (isOpen : Bool) (index : ℕ) (message : Value) : Slot S → Prop
  | .done new => KeptMessage call isOpen index message new
  | .pending found _ _ => found = message ∧ keepsStrings call (roleOf message) = false ∧
      ∃ old, message.get (text "content") = some (.str old)

omit [DecidableEq K] in
/-- A string of a tool is not kept for its role. -/
theorem keepsStrings_result {role : Value}
    (hrole : (role.isText (text "tool") || role.isText (text "function")) = true) :
    keepsStrings call role = false := by
  cases role with
  | str found =>
      rw [Bool.or_eq_true] at hrole
      rw [keepsStrings, isProtectedRole]
      rcases hrole with hrole | hrole
      · rw [show found = text "tool" from beq_iff_eq.mp hrole]
        cases call.options.skipUser with
        | true => cases call.options.skipSystem <;> decide
        | false => cases call.options.skipSystem <;> decide
      · rw [show found = text "function" from beq_iff_eq.mp hrole]
        cases call.options.skipUser with
        | true => cases call.options.skipSystem <;> decide
        | false => cases call.options.skipSystem <;> decide
  | _ => cases hrole

variable {content : Text}

omit [DecidableEq K] in
theorem shownAs_kept (hplain : PlainMessage message)
    (hindex : call.options.frozenMessageCount ≤ index)
    (hcontent : message.get (text "content") = some (.str content))
    (hkeeps : keepsStrings call (roleOf message) = false) (emission : Emission) :
    KeptMessage call isOpen index message (shownAs message emission) := by
  cases emission with
  | none => exact ⟨rfl, hplain⟩
  | some shown => exact kept_put_string hcontent hindex (by rw [hkeeps]; rfl)

omit [DecidableEq K] in
theorem toolMessageAnswer_kept (hplain : PlainMessage message)
    (hindex : call.options.frozenMessageCount ≤ index)
    (hcontent : (message.get (text "content")).getD (.str []) = .str content)
    (hrole : (roleOf message).isText (text "tool") = true)
    (hanswer : toolMessageAnswer call fromEnd message content = some (some new)) :
    KeptMessage call isOpen index message new := by
  have hkeeps : keepsStrings call (roleOf message) = false :=
    keepsStrings_result (by rw [hrole, Bool.true_or])
  simp only [toolMessageAnswer] at hanswer
  split_ifs at hanswer
  · cases hanswer
    exact ⟨rfl, hplain⟩
  · cases hanswer
    by_cases hne : content = []
    · rw [hne]
      exact ⟨rfl, hplain⟩
    · exact shownAs_kept hplain hindex (get_of_getD hne hcontent) hkeeps _
  · rw [Option.some_inj, Option.map_eq_some_iff] at hanswer
    obtain ⟨folded, hfolded, rfl⟩ := hanswer
    have hne : content ≠ [] := by
      rintro rfl
      cases hfolded
    exact shownAs_kept hplain hindex (get_of_getD hne hcontent) hkeeps _

theorem strategySlot_kept (hplain : PlainMessage message)
    (hindex : call.options.frozenMessageCount ≤ index)
    (hcontent : (message.get (text "content")).getD (.str []) = .str content)
    (hkeeps : keepsStrings call (roleOf message) = false) :
    SlotKept call isOpen index message
      (strategySlot call fromEnd index message content state).1 := by
  simp only [strategySlot]
  split_ifs with hkeep
  · exact ⟨rfl, hplain⟩
  · have hne : content ≠ [] := by
      rintro rfl
      exact hkeep rfl
    have hfound := get_of_getD hne hcontent
    split
    · exact shownAs_kept hplain hindex hfound hkeeps _
    · exact ⟨rfl, hkeeps, content, hfound⟩

theorem stringSlot_kept {slot : Slot S} (hplain : PlainMessage message)
    (hindex : call.options.frozenMessageCount ≤ index)
    (hcontent : (message.get (text "content")).getD (.str []) = .str content)
    (hslot : stringSlot call fromEnd index message content state = some (slot, after)) :
    SlotKept call isOpen index message slot := by
  obtain ⟨answer, hanswer, hslot⟩ := Option.bind_eq_some_iff.mp hslot
  cases answer with
  | some new =>
      obtain ⟨rfl, -⟩ := Prod.mk.inj (Option.some_inj.mp hslot)
      split_ifs at hanswer with hrole
      · exact toolMessageAnswer_kept hplain hindex hcontent hrole hanswer
      · cases hanswer
  | none =>
      obtain ⟨isRead, -, hslot⟩ := Option.bind_eq_some_iff.mp hslot
      split_ifs at hslot
      · cases hslot
        exact ⟨rfl, hplain⟩
      · obtain ⟨isProtected, hprotected, hslot⟩ := Option.map_eq_some_iff.mp hslot
        split_ifs at hslot with hrole
        · cases hslot
          exact ⟨rfl, hplain⟩
        · have hkeeps : keepsStrings call (roleOf message) = false := by
            rw [keepsStrings, hprotected]
            exact Bool.eq_false_iff.mpr hrole
          have hkept : SlotKept call isOpen index message
              (strategySlot call fromEnd index message content state).1 :=
            strategySlot_kept hplain hindex hcontent hkeeps
          rwa [hslot] at hkept

theorem messageSlot_kept (isOpen : Bool) {count : ℕ} {slot : Slot S}
    (hplain : call.options.frozenMessageCount ≤ index → PlainMessage message)
    (hslot : messageSlot call count index message state = some (slot, after)) :
    (call.options.frozenMessageCount ≤ index → SlotKept call isOpen index message slot) ∧
      (index < call.options.frozenMessageCount → slot = .done message) := by
  rw [messageSlot] at hslot
  split_ifs at hslot with hfrozen hdict
  · cases hslot
    exact ⟨fun hindex => absurd hfrozen (not_lt.mpr hindex), fun _ => rfl⟩
  · refine ⟨fun hindex => ?_, fun hless => absurd hless hfrozen⟩
    have hplain := hplain hindex
    cases hcontent : (message.get (text "content")).getD (.str []) with
    | list blocks =>
        rw [hcontent] at hslot
        obtain ⟨⟨new, behind⟩, hprocess, heq⟩ := Option.map_eq_some_iff.mp hslot
        cases heq
        exact processContentBlocks_kept hplain (list_of_getD hcontent) hindex hprocess
    | str content =>
        rw [hcontent] at hslot
        exact stringSlot_kept hplain hindex hcontent hslot
    | none => rw [hcontent] at hslot; cases hslot; exact ⟨rfl, hplain⟩
    | number found => rw [hcontent] at hslot; cases hslot; exact ⟨rfl, hplain⟩
    | dict entries => rw [hcontent] at hslot; cases hslot; exact ⟨rfl, hplain⟩

end

end Legroom.RouterApply
