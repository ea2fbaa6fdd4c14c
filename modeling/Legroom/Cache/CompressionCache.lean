import Legroom.Lib.Python.Same

/-!
# Compressions by content

Compressed tool results are kept under a hash of the original text, and put back into
later messages with a text of that hash.  The hash of a text is a parameter.
-/

namespace Legroom.Cache

open Python

/-! ## Tool results in messages -/

namespace ToolResult

def hasType (type : String) (block : Value) : Bool :=
  (block.get (text "type")).any fun found => found.isText (text type)

def isToolResult (block : Value) : Bool := hasType "tool_result" block

def isTextBlock (block : Value) : Bool := hasType "text" block

def isToolRole (message : Value) : Bool :=
  (message.get (text "role")).any fun role => role.isText (text "tool")

def content (message : Value) : Option Value := message.get (text "content")

def isToolResultMessage (message : Value) : Bool :=
  if isToolRole message then true
  else
    match content message with
    | some (.list blocks) => blocks.any isToolResult
    | _ => false

/-- The texts of the blocks, joined.  A text that is not a `str` cannot be joined. -/
def extractTextFromBlocks (blocks : List Value) : Option (Option Text) := do
  let texts ← (blocks.filter isTextBlock).mapM fun block =>
    ((block.get (text "text")).getD (.str [])).asText
  let joined := joinLines (texts.filter fun text => !text.isEmpty)
  return if joined.isEmpty then none else some joined

/-- The text of a content, if it has one. -/
def extractText : Option Value → Option (Option Text)
  | some (.str text) => some (some text)
  | some (.list blocks) => extractTextFromBlocks blocks
  | _ => some none

/-- The text of the first result that has a text or a list of blocks. -/
def extractFromResults : List Value → Option (Option Text)
  | [] => some none
  | block :: blocks =>
      if isToolResult block then
        match content block with
        | some (.str text) => some (some text)
        | some (.list inner) => extractTextFromBlocks inner
        | _ => extractFromResults blocks
      else extractFromResults blocks

def extractToolResultContent (message : Value) : Option (Option Text) :=
  if isToolRole message then extractText (content message)
  else
    match content message with
    | some (.list blocks) => extractFromResults blocks
    | _ => some none

def textBlock (new : Text) : Value := .dict [(text "type", .str (text "text")), (text "text", .str new)]

def swapResult (new : Text) (block : Value) : Value :=
  match content block with
  | some (.list _) => block.put (text "content") (.list [textBlock new])
  | _ => block.put (text "content") (.str new)

/-- The loop ends with the first result. -/
def swapFirstResult (new : Text) : List Value → List Value
  | [] => []
  | block :: blocks =>
      if isToolResult block then swapResult new block :: blocks
      else block :: swapFirstResult new blocks

def swapToolResultContent (message : Value) (new : Text) : Value :=
  if isToolRole message then message.put (text "content") (.str new)
  else
    match content message with
    | some (.list blocks) => message.put (text "content") (.list (swapFirstResult new blocks))
    | _ => message

/-- The texts of all results of a message. -/
def resultTexts (message : Value) : List (Option (Option Text)) :=
  if isToolRole message then [extractText (content message)]
  else
    match content message with
    | some (.list blocks) => (blocks.filter isToolResult).map fun block => extractText (content block)
    | _ => []

end ToolResult

/-! ## The cache -/

open ToolResult

structure CompressionCache where
  maxEntries : ℕ
  /-- The compressed texts, the one that was not used for longest first. -/
  entries : Dict Text Text
  /-- The hashes of texts that are not compressed. -/
  stable : List Text

namespace CompressionCache

/-- The entry is now the one used last. -/
def moveToEnd (cache : CompressionCache) (hash compressed : Text) : CompressionCache :=
  { cache with entries := (cache.entries.erase hash).set hash compressed }

def getCompressed (cache : CompressionCache) (hash : Text) : Option Text × CompressionCache :=
  match cache.entries.get? hash with
  | none => (none, cache)
  | some compressed => (some compressed, cache.moveToEnd hash compressed)

/-- The oldest entries go when there are too many. -/
def evict (cache : CompressionCache) : CompressionCache :=
  { cache with
    entries :=
      ⟨cache.entries.entries.drop (cache.entries.size - cache.maxEntries),
        cache.entries.nodup.sublist ((List.drop_sublist _ _).map _)⟩ }

def storeCompressed (cache : CompressionCache) (hash compressed : Text) : CompressionCache :=
  (cache.moveToEnd hash compressed).evict

def markStable (cache : CompressionCache) (hash : Text) : CompressionCache :=
  { cache with stable := hash :: cache.stable }

def knows (cache : CompressionCache) (hash : Text) : Bool :=
  (cache.entries.get? hash).isSome || cache.stable.contains hash

end CompressionCache

section

variable (digest : Text → Text)

/-- A text with a lone surrogate cannot be encoded. -/
def contentHash (content : Text) : Option Text :=
  if content.all fun char => !(0xD800 ≤ char && char ≤ 0xDFFF) then some (digest content) else none

namespace CompressionCache

/-- The first messages whose results are all known. -/
def countStable (cache : CompressionCache) : List Value → Option ℕ
  | [] => some 0
  | message :: messages =>
      if isToolResultMessage message then do
        match ← extractToolResultContent message with
        | some content =>
            if cache.knows (← contentHash digest content) then
              return (← countStable cache messages) + 1
            else return 0
        | none => return 0
      else do return (← countStable cache messages) + 1

/-- The last message is never counted. -/
def computeFrozenCount (cache : CompressionCache) (messages : List Value) : Option ℕ := do
  return min (← cache.countStable digest messages) (messages.length - 1)

def applyMessage (cache : CompressionCache) (message : Value) :
    Option (Value × CompressionCache) :=
  if isToolResultMessage message then do
    match ← extractToolResultContent message with
    | some content =>
        match cache.getCompressed (← contentHash digest content) with
        | (some compressed, cache) => return (swapToolResultContent message compressed, cache)
        | (none, cache) => return (message, cache)
    | none => return (message, cache)
  else some (message, cache)

def applyCached (cache : CompressionCache) :
    List Value → Option (List Value × CompressionCache)
  | [] => some ([], cache)
  | message :: messages => do
      let (applied, cache) ← cache.applyMessage digest message
      let (rest, cache) ← cache.applyCached messages
      return (applied :: rest, cache)

def updateMessage (cache : CompressionCache) (original compressed : Value) :
    Option CompressionCache := do
  match ← extractToolResultContent original, ← extractToolResultContent compressed with
  | some content, some new =>
      let hash ← contentHash digest content
      if content = new then return cache.markStable hash
      else return cache.storeCompressed hash new
  | _, _ => return cache

def updateMessages (cache : CompressionCache) : List (Value × Value) → Option CompressionCache
  | [] => some cache
  | (original, compressed) :: pairs => do
      (← cache.updateMessage digest original compressed).updateMessages pairs

def updateFromResult (cache : CompressionCache) (originals compressed : List Value) :
    Option CompressionCache :=
  if originals.length ≠ compressed.length then some cache
  else cache.updateMessages digest (originals.zip compressed)

end CompressionCache

end

/-!
## Cached compressions

A compression that is put back from the cache is the fresh one when the message has one
text, the compressions of one hash agree, and what is not compressed is not in the cache.
-/

namespace ToolResult

/-! ## Changes of texts -/

def TextBlockChange (block changed : Value) : Prop :=
  block = changed ∨ isTextBlock block = true ∧
    ∃ old new, block.get (text "text") = some (.str old) ∧
      changed = block.put (text "text") (.str new)

/-- Another text in the content of a tool result. -/
inductive ContentChange : Value → Value → Prop where
  | text (old new : Text) : ContentChange (.str old) (.str new)
  | blocks {olds news : List Value} (hblocks : List.Forall₂ TextBlockChange olds news) :
      ContentChange (.list olds) (.list news)
  | same (content : Value) : ContentChange content content

def ContentPut (value changed : Value) : Prop :=
  ∃ old new, content value = some old ∧ changed = value.put (text "content") new ∧
    ContentChange old new

def ResultChange (block changed : Value) : Prop :=
  block = changed ∨ isToolResult block = true ∧ ContentPut block changed

/-- Two messages that differ only inside the text of tool results. -/
inductive TextOnly : Value → Value → Prop where
  | same (message : Value) : TextOnly message message
  | tool {message changed : Value} (hrole : isToolRole message = true)
      (hput : ContentPut message changed) : TextOnly message changed
  | results {message : Value} {olds news : List Value} (hrole : isToolRole message = false)
      (hcontent : content message = some (.list olds))
      (hresults : List.Forall₂ ResultChange olds news) :
      TextOnly message (message.put (text "content") (.list news))

/-! ## Messages with one text -/

/-- A block that holds a text and nothing else. -/
def isPlainText (block : Value) : Bool :=
  match block with
  | .dict entries =>
      entries.length == 2 && isTextBlock block &&
        (block.get (text "text")).any fun found => found.asText.isSome
  | _ => false

/-- A result as a function of its one text. -/
def contentPlace (block : Value) : Option (Text → Value) :=
  match content block with
  | some (.str _) => some fun new => block.put (text "content") (.str new)
  | some (.list [inner]) =>
      if isPlainText inner then
        some fun new =>
          block.put (text "content") (.list [inner.put (text "text") (.str new)])
      else none
  | _ => none

/-- The blocks as a function of the text of the first result. -/
def resultsPlace : List Value → Option (Text → List Value)
  | [] => none
  | block :: blocks =>
      if isToolResult block then
        (contentPlace block).map fun place new => place new :: blocks
      else (resultsPlace blocks).map fun place new => block :: place new

/-- A message as a function of its one text. -/
def textPlace (message : Value) : Option (Text → Value) :=
  if isToolRole message then
    match content message with
    | some (.str _) => some fun new => message.put (text "content") (.str new)
    | _ => none
  else
    match content message with
    | some (.list blocks) =>
        (resultsPlace blocks).map fun place new =>
          message.put (text "content") (.list (place new))
    | _ => none

/-! ## Equal messages -/

theorem same_str_iff {left right : Text} :
    (Value.str left).same (.str right) = true ↔ left = right := by
  rw [Value.same, decide_eq_true_iff]

variable {new : Text} {value : Value}

theorem str_same_iff : (Value.str new).same value = true ↔ value = .str new := by
  cases value with
  | str other =>
      rw [same_str_iff, Value.str.injEq]
      exact eq_comm
  | _ => exact iff_of_false (fun hsame => nomatch hsame) nofun

variable {block changed : Value}

theorem textBlockChange_same_iff (hkeyed : block.WellKeyed)
    (hchange : TextBlockChange block changed) : block.same changed = true ↔ block = changed := by
  rcases hchange with rfl | ⟨-, old, new, hold, rfl⟩
  · exact iff_of_true (Value.same_self hkeyed) rfl
  · exact Value.same_put_self_iff hkeyed hold (by rw [same_str_iff, Value.str.injEq])

theorem contentChange_same_iff {old new : Value} (hkeyed : old.WellKeyed)
    (hchange : ContentChange old new) : old.same new = true ↔ old = new := by
  cases hchange with
  | text old new => rw [same_str_iff, Value.str.injEq]
  | @blocks olds news hblocks =>
      rw [Value.same, Value.list.injEq]
      refine sameItems_iff_eq (List.forall₂_iff_get.mpr ⟨hblocks.length_eq, fun place hold hnew => ?_⟩)
      exact textBlockChange_same_iff (hkeyed.of_mem (List.get_mem olds ⟨place, hold⟩))
        (hblocks.get hold hnew)
  | same => exact iff_of_true (Value.same_self hkeyed) rfl

theorem contentPut_same_iff (hkeyed : value.WellKeyed) (hput : ContentPut value changed) :
    value.same changed = true ↔ value = changed := by
  obtain ⟨old, new, hold, rfl, hchange⟩ := hput
  exact Value.same_put_self_iff hkeyed hold (contentChange_same_iff (hkeyed.get hold) hchange)

theorem resultChange_same_iff (hkeyed : block.WellKeyed) (hchange : ResultChange block changed) :
    block.same changed = true ↔ block = changed := by
  rcases hchange with rfl | ⟨-, hput⟩
  · exact iff_of_true (Value.same_self hkeyed) rfl
  · exact contentPut_same_iff hkeyed hput

variable {olds news : List Value}

theorem results_same_iff (hkeyed : (Value.list olds).WellKeyed)
    (hresults : List.Forall₂ ResultChange olds news) : sameItems olds news = true ↔ olds = news :=
  sameItems_iff_eq (List.forall₂_iff_get.mpr ⟨hresults.length_eq, fun place hold hnew =>
    resultChange_same_iff (hkeyed.of_mem (List.get_mem olds ⟨place, hold⟩))
      (hresults.get hold hnew)⟩)

/-- Messages that differ only in texts are equal when they are the same. -/
theorem textOnly_same_iff {message : Value} (hkeyed : message.WellKeyed)
    (hchange : TextOnly message changed) : message.same changed = true ↔ message = changed := by
  cases hchange with
  | same => exact iff_of_true (Value.same_self hkeyed) rfl
  | tool hrole hput => exact contentPut_same_iff hkeyed hput
  | results hrole hcontent hresults =>
      refine Value.same_put_self_iff hkeyed hcontent ?_
      rw [Value.same, Value.list.injEq]
      exact results_same_iff (hkeyed.get hcontent) hresults

/-! ## Swapped texts -/

variable {entries : List (Text × Value)}

/-- The entries of a block that has the text and nothing else. -/
theorem textBlock_same_dict_iff :
    (textBlock new).same (.dict entries) = true ↔
      entries.length = 2 ∧ entries.lookup (text "type") = some (.str (text "text")) ∧
        entries.lookup (text "text") = some (.str new) := by
  have hnodup : ([(text "type", Value.str (text "text")),
      (text "text", Value.str new)].map Prod.fst).Nodup := by
    change [text "type", text "text"].Nodup
    decide
  rw [textBlock, same_dict_iff hnodup]
  constructor
  · rintro ⟨hlength, hall⟩
    obtain ⟨type, htype, hsame⟩ := hall (text "type") _ rfl
    obtain ⟨found, hfound, hother⟩ := hall (text "text") (.str new) rfl
    rw [str_same_iff.mp hsame] at htype
    rw [str_same_iff.mp hother] at hfound
    exact ⟨hlength.symm, htype, hfound⟩
  · rintro ⟨hlength, htype, hfound⟩
    refine ⟨hlength.symm, fun key value hvalue => ?_⟩
    rw [List.lookup_cons] at hvalue
    split at hvalue
    · next hkey =>
      rw [beq_iff_eq.mp hkey]
      exact ⟨_, htype, Option.some_inj.mp hvalue ▸ same_str_iff.mpr rfl⟩
    · rw [List.lookup_cons] at hvalue
      split at hvalue
      · next hkey =>
        rw [beq_iff_eq.mp hkey]
        exact ⟨_, hfound, Option.some_inj.mp hvalue ▸ same_str_iff.mpr rfl⟩
      · cases hvalue

theorem isPlainText_iff :
    isPlainText (.dict entries) = true ↔
      entries.length = 2 ∧ entries.lookup (text "type") = some (.str (text "text")) ∧
        ∃ old, entries.lookup (text "text") = some (.str old) := by
  rw [isPlainText, Bool.and_eq_true, Bool.and_eq_true, beq_iff_eq, and_assoc, isTextBlock,
    hasType, Option.any_eq_true, Option.any_eq_true]
  refine and_congr_right fun _ => and_congr ⟨?_, ?_⟩ ⟨?_, ?_⟩
  · rintro ⟨found, hfound, htext⟩
    rw [← Value.eq_of_isText htext]
    exact hfound
  · exact fun htype => ⟨_, htype, beq_self_eq_true _⟩
  · rintro ⟨found, hfound, htext⟩
    cases found with
    | str old => exact ⟨old, hfound⟩
    | _ => cases htext
  · rintro ⟨old, hold⟩
    exact ⟨_, hold, rfl⟩

/-- The block of a swapped list is the changed block when that is plain and has the text. -/
theorem textBlock_same_iff (hchange : TextBlockChange block changed) :
    (textBlock new).same changed = true ↔
      isPlainText block = true ∧ changed = block.put (text "text") (.str new) := by
  cases block with
  | dict entries =>
      rcases hchange with rfl | ⟨-, old, other, hold, rfl⟩
      · rw [textBlock_same_dict_iff, isPlainText_iff]
        constructor
        · rintro ⟨hlength, htype, hnew⟩
          have hget : (Value.dict entries).get (text "text") = some (.str new) := hnew
          exact ⟨⟨hlength, htype, new, hnew⟩, (Value.put_get hget).symm⟩
        · rintro ⟨⟨hlength, htype, -⟩, heq⟩
          have hget := congrArg (Value.get (text "text")) heq
          rw [Value.get_put rfl, if_pos rfl] at hget
          exact ⟨hlength, htype, hget⟩
      · have hkeys := Value.map_fst_setEntry (Option.isSome_of_eq_some hold) (.str other)
        have hlength := congrArg List.length hkeys
        rw [List.length_map, List.length_map] at hlength
        rw [Value.put, textBlock_same_dict_iff, isPlainText_iff, hlength,
          Value.lookup_setEntry, if_neg (by decide), Value.lookup_setEntry, if_pos rfl]
        constructor
        · rintro ⟨hlength, htype, hother⟩
          rw [Option.some_inj.mp hother]
          exact ⟨⟨hlength, htype, old, hold⟩, rfl⟩
        · rintro ⟨⟨hlength, htype, -⟩, heq⟩
          have hget := congrArg (Value.get (text "text")) heq
          rw [Value.put, Value.get, Value.get, Value.lookup_setEntry, if_pos rfl,
            Value.lookup_setEntry, if_pos rfl] at hget
          exact ⟨hlength, htype, hget⟩
  | _ =>
      rcases hchange with rfl | ⟨-, old, other, hold, -⟩
      · exact iff_of_false Bool.false_ne_true fun hboth => Bool.false_ne_true hboth.1
      · cases hold

theorem put_content_inj {old left right : Value} (hold : content value = some old) :
    value.put (text "content") left = value.put (text "content") right ↔ left = right := by
  constructor
  · intro heq
    have hget := congrArg (Value.get (text "content")) heq
    have hdict := Value.isDict_of_get hold
    rw [Value.get_put hdict, Value.get_put hdict, if_pos rfl] at hget
    exact Option.some_inj.mp hget
  · exact fun heq => heq ▸ rfl

/-- A change of the content, where no change counts as one. -/
theorem contentPut_of_resultChange (hchange : ResultChange block changed) :
    ContentPut block changed ∨ content block = none ∧ changed = block := by
  rcases hchange with rfl | ⟨-, hput⟩
  · cases hcontent : content block with
    | none => exact Or.inr ⟨rfl, rfl⟩
    | some old =>
        exact Or.inl ⟨old, old, hcontent, (Value.put_get hcontent).symm, ContentChange.same old⟩
  · exact Or.inl hput

theorem blocksChange {new : Value} (hchange : ContentChange (.list olds) new) :
    ∃ news, new = .list news ∧ List.Forall₂ TextBlockChange olds news := by
  cases hchange with
  | blocks hblocks => exact ⟨_, rfl, hblocks⟩
  | same => exact ⟨olds, rfl, List.forall₂_same.mpr fun block _ => Or.inl rfl⟩

/-- A list with one swapped block. -/
theorem textBlock_sameItems_iff (hblocks : List.Forall₂ TextBlockChange olds news) :
    sameItems [textBlock new] news = true ↔
      ∃ inner, olds = [inner] ∧ isPlainText inner = true ∧
        news = [inner.put (text "text") (.str new)] := by
  rw [same_list_iff]
  constructor
  · intro hsame
    cases hsame with
    | cons hfirst hrest =>
        cases hrest
        cases hblocks with
        | cons hblock hnil =>
            cases hnil
            obtain ⟨hplain, heq⟩ := (textBlock_same_iff hblock).mp hfirst
            exact ⟨_, rfl, hplain, heq ▸ rfl⟩
  · rintro ⟨inner, rfl, hplain, rfl⟩
    cases hblocks with
    | cons hblock hnil => exact .cons ((textBlock_same_iff hblock).mpr ⟨hplain, rfl⟩) .nil

/-- A swapped result is the changed one when it has one text, and that is the new one. -/
theorem swapResult_same_iff (hkeyed : block.WellKeyed) (hdict : block.isDict = true)
    (hchange : ResultChange block changed) :
    (swapResult new block).same changed = true ↔
      ∃ place, contentPlace block = some place ∧ changed = place new := by
  rcases contentPut_of_resultChange hchange with ⟨old, other, hold, rfl, hcontent⟩ | ⟨hnone, rfl⟩
  · rw [swapResult, contentPlace, hold]
    cases old with
    | list olds =>
        obtain ⟨news, rfl, hblocks⟩ := blocksChange hcontent
        dsimp only
        rw [Value.same_put hkeyed hold, Value.same, textBlock_sameItems_iff hblocks]
        constructor
        · rintro ⟨inner, rfl, hplain, rfl⟩
          exact ⟨_, if_pos hplain, rfl⟩
        · rintro ⟨place, hplace, heq⟩
          split at hplace
          · next heq' => cases heq'
          · next inner heq' =>
            cases heq'
            split_ifs at hplace with hplain
            cases hplace
            exact ⟨inner, rfl, hplain, Value.list.inj ((put_content_inj hold).mp heq)⟩
          · cases hplace
    | str old =>
        dsimp only
        rw [Value.same_put hkeyed hold, str_same_iff]
        constructor
        · rintro rfl
          exact ⟨_, rfl, rfl⟩
        · rintro ⟨place, hplace, heq⟩
          cases hplace
          exact (put_content_inj hold).mp heq
    | _ =>
        cases hcontent
        dsimp only
        rw [Value.same_put hkeyed hold]
        exact iff_of_false (fun hsame => nomatch hsame) fun ⟨_, hplace, _⟩ => nomatch hplace
  · rw [swapResult, contentPlace, hnone]
    refine iff_of_false (fun hsame => ?_) fun ⟨_, hplace, _⟩ => nomatch hplace
    have hget : (changed.put (text "content") (.str new)).get (text "content") =
        some (.str new) := by rw [Value.get_put hdict, if_pos rfl]
    obtain ⟨matching, hmatching, -⟩ :=
      Value.same_get (hkeyed.put (text "content") (Value.wellKeyed_str new)) hsame hget
    cases hnone.symm.trans hmatching

theorem isDict_of_isToolResult (hresult : isToolResult block = true) : block.isDict = true := by
  obtain ⟨type, htype, -⟩ := (Option.any_eq_true _ _).mp hresult
  exact Value.isDict_of_get htype

/-- Blocks with a swapped first result, if that is what has been changed. -/
theorem swapFirstResult_same_iff (hkeyed : (Value.list olds).WellKeyed)
    (hresults : List.Forall₂ ResultChange olds news) (hany : olds.any isToolResult = true) :
    sameItems (swapFirstResult new olds) news = true ↔
      ∃ place, resultsPlace olds = some place ∧ news = place new := by
  induction hresults with
  | nil => cases hany
  | @cons block changed blocks others hchange hrest ih =>
      have hblock := hkeyed.of_mem List.mem_cons_self
      have hbehind : (Value.list blocks).WellKeyed := by
        rw [Value.WellKeyed, wellKeyedItems_iff]
        exact fun item hitem => hkeyed.of_mem (List.mem_cons_of_mem block hitem)
      rw [swapFirstResult, resultsPlace]
      split_ifs with hresult
      · rw [sameItems, Bool.and_eq_true, results_same_iff hbehind hrest,
          swapResult_same_iff hblock (isDict_of_isToolResult hresult) hchange]
        constructor
        · rintro ⟨⟨place, hplace, rfl⟩, rfl⟩
          exact ⟨_, Option.map_eq_some_iff.mpr ⟨place, hplace, rfl⟩, rfl⟩
        · rintro ⟨place, hplace, heq⟩
          obtain ⟨inner, hinner, rfl⟩ := Option.map_eq_some_iff.mp hplace
          obtain ⟨rfl, rfl⟩ := List.cons.inj heq
          exact ⟨⟨inner, hinner, rfl⟩, rfl⟩
      · have hsame : changed = block := by
          rcases hchange with rfl | ⟨htype, -⟩
          · rfl
          · exact absurd htype hresult
        have hany' : blocks.any isToolResult = true := by
          rwa [List.any_cons, Bool.eq_false_iff.mpr hresult, Bool.false_or] at hany
        rw [hsame, sameItems, Value.same_self hblock, Bool.true_and, ih hbehind hany']
        constructor
        · rintro ⟨place, hplace, rfl⟩
          exact ⟨_, Option.map_eq_some_iff.mpr ⟨place, hplace, rfl⟩, rfl⟩
        · rintro ⟨place, hplace, heq⟩
          obtain ⟨inner, hinner, rfl⟩ := Option.map_eq_some_iff.mp hplace
          exact ⟨inner, hinner, (List.cons.inj heq).2⟩

/-- A swapped message is the changed one when it has one text, and that is the new one. -/
theorem swap_same_iff {message : Value} (hkeyed : message.WellKeyed)
    (hresult : isToolResultMessage message = true) (hcontent : (content message).isSome = true)
    (hchange : TextOnly message changed) :
    (swapToolResultContent message new).same changed = true ↔
      ∃ place, textPlace message = some place ∧ changed = place new := by
  obtain ⟨old, hold⟩ := Option.isSome_iff_exists.mp hcontent
  cases hrole : isToolRole message with
  | true =>
      have hput : ContentPut message changed := by
        cases hchange with
        | same => exact ⟨old, old, hold, (Value.put_get hold).symm, .same old⟩
        | tool _ hput => exact hput
        | results hnot => cases hrole.symm.trans hnot
      obtain ⟨found, other, hfound, rfl, hother⟩ := hput
      cases hold.symm.trans hfound
      rw [swapToolResultContent, if_pos hrole, textPlace, if_pos hrole, hold,
        Value.same_put hkeyed hold, str_same_iff]
      cases hother with
      | text old other =>
          constructor
          · intro heq
            rw [heq]
            exact ⟨_, rfl, rfl⟩
          · rintro ⟨place, hplace, heq⟩
            cases hplace
            exact (put_content_inj hold).mp heq
      | blocks hblocks => exact iff_of_false nofun fun ⟨_, hplace, _⟩ => nomatch hplace
      | same =>
          cases old with
          | str old =>
              constructor
              · intro heq
                rw [heq]
                exact ⟨_, rfl, rfl⟩
              · rintro ⟨place, hplace, heq⟩
                cases hplace
                exact (put_content_inj hold).mp heq
          | _ => exact iff_of_false nofun fun ⟨_, hplace, _⟩ => nomatch hplace
  | false =>
      rw [isToolResultMessage, if_neg (by rw [hrole]; exact Bool.false_ne_true), hold] at hresult
      cases old with
      | list olds =>
          have hresults : ∃ news, changed = message.put (text "content") (.list news) ∧
              List.Forall₂ ResultChange olds news := by
            cases hchange with
            | same =>
                exact ⟨olds, (Value.put_get hold).symm,
                  List.forall₂_same.mpr fun block _ => Or.inl rfl⟩
            | tool hnot => cases hrole.symm.trans hnot
            | results _ hfound hresults =>
                cases hold.symm.trans hfound
                exact ⟨_, rfl, hresults⟩
          obtain ⟨news, rfl, hresults⟩ := hresults
          rw [swapToolResultContent, if_neg (by rw [hrole]; exact Bool.false_ne_true), textPlace,
            if_neg (by rw [hrole]; exact Bool.false_ne_true), hold]
          dsimp only
          rw [Value.same_put hkeyed hold, Value.same,
            swapFirstResult_same_iff (hkeyed.get hold) hresults hresult]
          constructor
          · rintro ⟨place, hplace, rfl⟩
            exact ⟨_, Option.map_eq_some_iff.mpr ⟨place, hplace, rfl⟩, rfl⟩
          · rintro ⟨place, hplace, heq⟩
            obtain ⟨inner, hinner, rfl⟩ := Option.map_eq_some_iff.mp hplace
            exact ⟨inner, hinner, Value.list.inj ((put_content_inj hold).mp heq)⟩
      | _ => cases hresult

end ToolResult

end Legroom.Cache
