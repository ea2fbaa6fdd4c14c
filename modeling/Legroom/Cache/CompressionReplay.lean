import Legroom.Cache.CompressionCache
import Legroom.Lib.Readings

/-!
# Replayed compressions

What the cache holds after a compression is told by the messages that were compressed, and
what it puts back into them is told by what it holds.
-/

namespace Legroom.Cache

open Python ToolResult

/-! ## Readable texts -/

namespace ToolResult

/-- The text of a block as far as it can be joined. -/
def joinedText (block : Value) : Option Text :=
  ((block.get (text "text")).getD (.str [])).asText

theorem isSome_extractTextFromBlocks {blocks : List Value} :
    (extractTextFromBlocks blocks).isSome = true ↔
      ∀ block ∈ blocks, isTextBlock block = true → (joinedText block).isSome = true := by
  have hmap : (extractTextFromBlocks blocks).isSome =
      ((blocks.filter isTextBlock).mapM joinedText).isSome := by
    change (((blocks.filter isTextBlock).mapM joinedText).bind _).isSome = _
    cases (blocks.filter isTextBlock).mapM joinedText with
    | none => rfl
    | some texts => rfl
  rw [hmap, isSome_mapM]
  constructor
  · exact fun hall block hblock htype => hall block (List.mem_filter.mpr ⟨hblock, htype⟩)
  · intro hall block hblock
    obtain ⟨hmem, htype⟩ := List.mem_filter.mp hblock
    exact hall block hmem htype

variable {block : Value}

theorem hasType_put (hdict : block.isDict = true) {key : Text} (hkey : text "type" ≠ key)
    (type : String) (new : Value) : hasType type (block.put key new) = hasType type block := by
  rw [hasType, Value.get_put hdict, if_neg hkey, hasType]

variable {changed : Value}

theorem joinedText_of_change (hchange : TextBlockChange block changed)
    (hjoined : (joinedText block).isSome = true) : (joinedText changed).isSome = true := by
  rcases hchange with rfl | ⟨-, old, new, hold, rfl⟩
  · exact hjoined
  · rw [joinedText, Value.get_put (Value.isDict_of_get hold), if_pos rfl]
    rfl

theorem isTextBlock_of_change (hchange : TextBlockChange block changed) :
    isTextBlock changed = isTextBlock block := by
  rcases hchange with rfl | ⟨-, old, new, hold, rfl⟩
  · rfl
  · exact hasType_put (Value.isDict_of_get hold) (by decide) "text" _

variable {olds news : List Value}

theorem isSome_of_blocksChange (hblocks : List.Forall₂ TextBlockChange olds news)
    (hread : (extractTextFromBlocks olds).isSome = true) :
    (extractTextFromBlocks news).isSome = true := by
  rw [isSome_extractTextFromBlocks] at hread ⊢
  induction hblocks with
  | nil => exact fun block hblock => absurd hblock List.not_mem_nil
  | cons hchange hrest ih =>
      rw [List.forall_mem_cons] at hread ⊢
      refine ⟨fun htype => ?_, ih hread.2⟩
      rw [isTextBlock_of_change hchange] at htype
      exact joinedText_of_change hchange (hread.1 htype)

theorem isSome_of_contentChange {old new : Value} (hchange : ContentChange old new)
    (hread : (extractText (some old)).isSome = true) :
    (extractText (some new)).isSome = true := by
  cases hchange with
  | text old new => rfl
  | blocks hblocks => exact isSome_of_blocksChange hblocks hread
  | same => exact hread

theorem isSome_of_resultsChange (hresults : List.Forall₂ ResultChange olds news)
    (hread : (extractFromResults olds).isSome = true) :
    (extractFromResults news).isSome = true := by
  induction hresults with
  | nil => exact hread
  | @cons block changed blocks others hchange hrest ih =>
      rw [extractFromResults] at hread ⊢
      rcases hchange with rfl | ⟨htype, old, new, hold, rfl, hcontent⟩
      · split_ifs at hread ⊢ with hresult
        · split at hread
          · rfl
          · exact hread
          · exact ih hread
        · exact ih hread
      · have hdict := Value.isDict_of_get hold
        have hget : content (block.put (text "content") new) = some new := by
          rw [content, Value.get_put hdict, if_pos rfl]
        have htype' : isToolResult (block.put (text "content") new) = true :=
          (hasType_put hdict (by decide) "tool_result" new).trans htype
        rw [if_pos htype, hold] at hread
        rw [if_pos htype', hget]
        cases hcontent with
        | text old new => rfl
        | blocks hblocks => exact isSome_of_blocksChange hblocks hread
        | same =>
            cases old with
            | str old => rfl
            | list inner => exact hread
            | _ => exact ih hread

/-- A message with other texts can be read when the message can. -/
theorem isSome_of_textOnly {message : Value} (hchange : TextOnly message changed)
    (hread : (extractToolResultContent message).isSome = true) :
    (extractToolResultContent changed).isSome = true := by
  have hrole_put {new : Value} (hdict : message.isDict = true) :
      isToolRole (message.put (text "content") new) = isToolRole message := by
    rw [isToolRole, Value.get_put hdict, if_neg (by decide), isToolRole]
  have hcontent_put {new : Value} (hdict : message.isDict = true) :
      content (message.put (text "content") new) = some new := by
    rw [content, Value.get_put hdict, if_pos rfl]
  cases hchange with
  | same => exact hread
  | tool hrole hput =>
      obtain ⟨old, new, hold, rfl, hcontent⟩ := hput
      have hdict := Value.isDict_of_get hold
      rw [extractToolResultContent, if_pos hrole, hold] at hread
      rw [extractToolResultContent, if_pos ((hrole_put hdict).trans hrole), hcontent_put hdict]
      exact isSome_of_contentChange hcontent hread
  | results hrole hcontent hresults =>
      have hdict := Value.isDict_of_get hcontent
      have hnot : ¬isToolRole message = true := Bool.eq_false_iff.mp hrole
      rw [extractToolResultContent, if_neg hnot, hcontent] at hread
      rw [extractToolResultContent, if_neg (by rwa [hrole_put hdict]), hcontent_put hdict]
      exact isSome_of_resultsChange hresults hread

end ToolResult

section

variable (digest : Text → Text)

/-- The text that is read from a message, if there is one. -/
def textOf (message : Value) : Option Text := (extractToolResultContent message).getD none

def hashOf (message : Value) : Option Text := (textOf message).bind (contentHash digest)

/-- The texts of the message can be joined, and the one that is read can be encoded. -/
def Readable (message : Value) : Prop :=
  (extractToolResultContent message).isSome = true ∧
    ∀ content, textOf message = some content → (contentHash digest content).isSome = true

/-! ## What a compression leaves in the cache -/

/-- The text after, if the text before has the hash and is changed. -/
def changedText (hash : Text) : Option Text → Option Text → Option Text
  | some content, some new =>
      if content ≠ new ∧ contentHash digest content = some hash then some new else none
  | _, _ => none

def changeAt (hash : Text) (pair : Value × Value) : Option Text :=
  changedText digest hash (textOf pair.1) (textOf pair.2)

/-- The message has a text of the hash before and a text after. -/
def Covers (hash : Text) (pair : Value × Value) : Prop :=
  hashOf digest pair.1 = some hash ∧ (textOf pair.2).isSome = true

/-- The compression of the last message of a hash that is changed, or else the older entry. -/
def recorded (cache : CompressionCache) (pairs : List (Value × Value)) (hash : Text) :
    Option Text :=
  (pairs.reverse.findSome? (changeAt digest hash)).or (cache.entries.get? hash)

def Known (cache : CompressionCache) (pairs : List (Value × Value)) (hash : Text) : Prop :=
  cache.knows hash = true ∨ ∃ pair ∈ pairs, Covers digest hash pair

structure Learns (pairs : List (Value × Value)) (cache next : CompressionCache) : Prop where
  maxEntries : next.maxEntries = cache.maxEntries
  size : next.entries.size ≤ cache.entries.size + pairs.length
  entries : ∀ hash, next.entries.get? hash = recorded digest cache pairs hash
  knows : ∀ hash, next.knows hash = true ↔ Known digest cache pairs hash

variable {digest} {cache middle next : CompressionCache} {hash : Text}
variable (pair : Value × Value)

theorem recorded_cons (pairs : List (Value × Value)) :
    recorded digest cache (pair :: pairs) hash =
      (pairs.reverse.findSome? (changeAt digest hash)).or
        ((changeAt digest hash pair).or (cache.entries.get? hash)) := by
  rw [recorded, List.reverse_cons, List.findSome?_append, Option.or_assoc,
    List.findSome?_singleton]

theorem known_cons (pairs : List (Value × Value)) :
    Known digest cache (pair :: pairs) hash ↔
      (cache.knows hash = true ∨ Covers digest hash pair) ∨
        ∃ other ∈ pairs, Covers digest hash other := by
  rw [Known, List.exists_mem_cons_iff, or_assoc]

theorem Learns.refl (cache : CompressionCache) : Learns digest [] cache cache where
  maxEntries := rfl
  size := le_rfl
  entries _ := rfl
  knows _ := (or_iff_left fun ⟨_, hpair, _⟩ => List.not_mem_nil hpair).symm

theorem Learns.cons {pair : Value × Value} {pairs : List (Value × Value)}
    (hfirst : Learns digest [pair] cache middle) (hrest : Learns digest pairs middle next) :
    Learns digest (pair :: pairs) cache next where
  maxEntries := hrest.maxEntries.trans hfirst.maxEntries
  size := by
    have hmiddle := hfirst.size
    have hnext := hrest.size
    rw [List.length_singleton] at hmiddle
    rw [List.length_cons]
    omega
  entries hash := by
    rw [hrest.entries, recorded, hfirst.entries, recorded_cons, recorded_cons]
    rfl
  knows hash := by
    have hnone : ¬∃ other ∈ ([] : List (Value × Value)), Covers digest hash other :=
      fun ⟨_, hother, _⟩ => List.not_mem_nil hother
    rw [hrest.knows, Known, hfirst.knows, known_cons, known_cons, or_iff_left hnone]

/-- What is known and recorded after one message. -/
theorem Learns.single {pair : Value × Value} (hmax : next.maxEntries = cache.maxEntries)
    (hsize : next.entries.size ≤ cache.entries.size + 1)
    (hentries : ∀ hash, next.entries.get? hash =
      (changeAt digest hash pair).or (cache.entries.get? hash))
    (hstable : ∀ hash, hash ∈ next.stable ∨ (changeAt digest hash pair).isSome = true ↔
      hash ∈ cache.stable ∨ Covers digest hash pair) :
    Learns digest [pair] cache next where
  maxEntries := hmax
  size := hsize
  entries hash := by
    rw [hentries, recorded_cons]
    rfl
  knows hash := by
    have hnone : ¬∃ other ∈ ([] : List (Value × Value)), Covers digest hash other :=
      fun ⟨_, hother, _⟩ => List.not_mem_nil hother
    have hboth := hstable hash
    rw [known_cons, or_iff_left hnone, CompressionCache.knows, Bool.or_eq_true,
      List.contains_iff_mem, hentries, Option.isSome_or, Bool.or_eq_true,
      CompressionCache.knows, Bool.or_eq_true, List.contains_iff_mem]
    tauto

namespace CompressionCache

variable (cache)

theorem evict_of_le (hsize : cache.entries.size ≤ cache.maxEntries) : cache.evict = cache := by
  have hentries : (⟨cache.entries.entries.drop (cache.entries.size - cache.maxEntries),
      cache.entries.nodup.sublist ((List.drop_sublist _ _).map _)⟩ : Dict Text Text) =
        cache.entries := by
    refine Dict.ext ?_
    rw [Nat.sub_eq_zero_of_le hsize]
    rfl
  rw [evict, hentries]

theorem get?_moveToEnd (hash compressed other : Text) :
    (cache.moveToEnd hash compressed).entries.get? other =
      if other = hash then some compressed else cache.entries.get? other := by
  rw [moveToEnd, Dict.get?_set]
  split_ifs with hother
  · rfl
  · rw [Dict.get?_erase, if_neg hother]

theorem size_moveToEnd (hash compressed : Text) :
    (cache.moveToEnd hash compressed).entries.size ≤ cache.entries.size + 1 := by
  have herase := Dict.size_erase cache.entries hash
  have hset := Dict.size_set_le (cache.entries.erase hash) hash compressed
  change ((cache.entries.erase hash).set hash compressed).size ≤ _
  omega

variable {cache}

/-- One message of a compression. -/
theorem exists_updateMessage {original compressed : Value}
    (hread : Readable digest original)
    (hcompressed : (extractToolResultContent compressed).isSome = true)
    (hcapacity : cache.entries.size < cache.maxEntries) :
    ∃ next, cache.updateMessage digest original compressed = some next ∧
      Learns digest [(original, compressed)] cache next := by
  obtain ⟨hsome, hencodable⟩ := hread
  obtain ⟨content, hcontent⟩ := Option.isSome_iff_exists.mp hsome
  obtain ⟨new, hnew⟩ := Option.isSome_iff_exists.mp hcompressed
  have htext : textOf original = content := by rw [textOf, hcontent, Option.getD_some]
  have htextNew : textOf compressed = new := by rw [textOf, hnew, Option.getD_some]
  have hchange (hash : Text) : changeAt digest hash (original, compressed) =
      changedText digest hash content new := by
    rw [changeAt, htext, htextNew]
  have hcovers (hash : Text) : Covers digest hash (original, compressed) ↔
      content.bind (contentHash digest) = some hash ∧ new.isSome = true := by
    rw [Covers, hashOf, htext, htextNew]
  rw [updateMessage, hcontent, hnew]
  cases content with
  | none =>
      refine ⟨cache, rfl, Learns.single rfl (Nat.le_succ _) (fun hash => ?_) fun hash => ?_⟩
      · rw [hchange]
        rfl
      · rw [hchange, hcovers]
        exact or_congr_right ⟨nofun, nofun⟩
  | some content =>
      cases new with
      | none =>
          refine ⟨cache, rfl, Learns.single rfl (Nat.le_succ _) (fun hash => ?_) fun hash => ?_⟩
          · rw [hchange]
            rfl
          · rw [hchange, hcovers]
            exact or_congr_right ⟨nofun, nofun⟩
      | some new =>
          obtain ⟨found, hfound⟩ := Option.isSome_iff_exists.mp (hencodable content htext)
          dsimp only [Option.bind_eq_bind, Option.bind_some]
          rw [hfound, Option.bind_some]
          by_cases hsame : content = new
          · rw [if_pos hsame]
            refine ⟨cache.markStable found, rfl,
              Learns.single rfl (Nat.le_succ _) (fun hash => ?_) fun hash => ?_⟩
            · rw [hchange, changedText, if_neg fun hboth => hboth.1 hsame]
              rfl
            · rw [hchange, hcovers, changedText, if_neg fun hboth => hboth.1 hsame,
                Option.bind_some, hfound, markStable, List.mem_cons, Option.some_inj]
              constructor
              · rintro ((rfl | hmem) | hnone)
                · exact Or.inr ⟨rfl, rfl⟩
                · exact Or.inl hmem
                · cases hnone
              · rintro (hmem | ⟨rfl, -⟩)
                · exact Or.inl (Or.inr hmem)
                · exact Or.inl (Or.inl rfl)
          · rw [if_neg hsame]
            have hsize := cache.size_moveToEnd found new
            have hevict := (cache.moveToEnd found new).evict_of_le (hsize.trans hcapacity)
            refine ⟨cache.storeCompressed found new, rfl, ?_⟩
            rw [storeCompressed, hevict]
            refine Learns.single rfl hsize (fun hash => ?_) fun hash => ?_
            · rw [hchange, get?_moveToEnd, changedText]
              by_cases hhash : hash = found
              · rw [if_pos hhash, if_pos ⟨hsame, hhash ▸ hfound⟩]
                rfl
              · rw [if_neg hhash, if_neg]
                · rfl
                · exact fun hboth => hhash (Option.some_inj.mp (hboth.2.symm.trans hfound))
            · rw [hchange, hcovers, changedText, Option.bind_some, hfound]
              by_cases hhash : found = hash
              · rw [if_pos ⟨hsame, congrArg some hhash⟩]
                exact iff_of_true (Or.inr rfl) (Or.inr ⟨congrArg some hhash, rfl⟩)
              · rw [if_neg fun hboth => hhash (Option.some_inj.mp hboth.2)]
                exact or_congr_right
                  ⟨nofun, fun hboth => absurd (Option.some_inj.mp hboth.1) hhash⟩

/-- The messages of a compression, in their order. -/
theorem exists_updateMessages {pairs : List (Value × Value)}
    (hread : ∀ pair ∈ pairs, Readable digest pair.1 ∧
      (extractToolResultContent pair.2).isSome = true)
    (hcapacity : cache.entries.size + pairs.length ≤ cache.maxEntries) :
    ∃ next, cache.updateMessages digest pairs = some next ∧ Learns digest pairs cache next := by
  induction pairs generalizing cache with
  | nil => exact ⟨cache, rfl, Learns.refl cache⟩
  | cons pair pairs ih =>
      rw [List.forall_mem_cons] at hread
      rw [List.length_cons] at hcapacity
      obtain ⟨middle, hmiddle, hfirst⟩ :=
        @exists_updateMessage digest cache _ _ hread.1.1 hread.1.2 (by omega)
      have hsize := hfirst.size
      rw [List.length_singleton] at hsize
      obtain ⟨next, hnext, hrest⟩ := @ih middle hread.2 (by
        rw [hfirst.maxEntries]
        omega)
      refine ⟨next, ?_, hfirst.cons hrest⟩
      rw [updateMessages, hmiddle]
      exact hnext

/-! ## What the cache puts back -/

end CompressionCache

variable (digest) in
/-- A message with what is found for the hash of its text. -/
def appliedTo (lookup : Text → Option Text) (message : Value) : Value :=
  match (hashOf digest message).bind lookup with
  | some new => swapToolResultContent message new
  | none => message

theorem any_of_extractFromResults {blocks : List Value}
    (htext : extractFromResults blocks ≠ some none) : blocks.any isToolResult = true := by
  induction blocks with
  | nil => exact absurd rfl htext
  | cons block blocks ih =>
      rw [List.any_cons, Bool.or_eq_true]
      rw [extractFromResults] at htext
      split_ifs at htext with hresult
      · exact Or.inl hresult
      · exact Or.inr (ih htext)

/-- Only a tool result has a text. -/
theorem isToolResultMessage_of_textOf {message : Value} {found : Text}
    (htext : textOf message = some found) :
    isToolResultMessage message = true ∧ (content message).isSome = true := by
  rw [textOf, extractToolResultContent] at htext
  rw [isToolResultMessage]
  split_ifs at htext ⊢ with hrole
  · refine ⟨rfl, ?_⟩
    cases hcontent : content message with
    | none => rw [hcontent] at htext; cases htext
    | some value => rfl
  · cases hcontent : content message with
    | none => rw [hcontent] at htext; cases htext
    | some value =>
        rw [hcontent] at htext
        cases value with
        | list blocks =>
            refine ⟨any_of_extractFromResults fun hnone => ?_, rfl⟩
            dsimp only at htext
            rw [hnone] at htext
            cases htext
        | _ => cases htext

namespace CompressionCache

theorem get?_getCompressed (cache : CompressionCache) (hash other : Text) :
    (cache.getCompressed hash).2.entries.get? other = cache.entries.get? other := by
  rw [getCompressed]
  cases hfound : cache.entries.get? hash with
  | none => rfl
  | some compressed =>
      dsimp only
      rw [get?_moveToEnd]
      split_ifs with hother
      · rw [hother, hfound]
      · rfl

theorem getCompressed_fst (cache : CompressionCache) (hash : Text) :
    (cache.getCompressed hash).1 = cache.entries.get? hash := by
  rw [getCompressed]
  cases cache.entries.get? hash with
  | none => rfl
  | some compressed => rfl

/-- One message from the cache. -/
theorem exists_applyMessage {message : Value} (hread : Readable digest message) :
    ∃ after, cache.applyMessage digest message =
        some (appliedTo digest cache.entries.get? message, after) ∧
      ∀ hash, after.entries.get? hash = cache.entries.get? hash := by
  obtain ⟨hsome, hencodable⟩ := hread
  obtain ⟨read, hextract⟩ := Option.isSome_iff_exists.mp hsome
  have htext : textOf message = read := by rw [textOf, hextract, Option.getD_some]
  rw [applyMessage, appliedTo, hashOf, htext]
  cases read with
  | none =>
      rw [hextract]
      refine ⟨cache, ?_, fun _ => rfl⟩
      split_ifs
      · rfl
      · rfl
  | some content =>
      obtain ⟨hash, hhash⟩ := Option.isSome_iff_exists.mp (hencodable content htext)
      rw [if_pos (isToolResultMessage_of_textOf htext).1, hextract]
      dsimp only [Option.bind_eq_bind, Option.bind_some]
      rw [hhash, Option.bind_some, Option.bind_some]
      refine ⟨(cache.getCompressed hash).2, ?_, get?_getCompressed cache hash⟩
      rw [← getCompressed_fst]
      cases cache.getCompressed hash with
      | mk found after =>
          cases found with
          | none => rfl
          | some compressed => rfl

/-- The messages from the cache, in their order. -/
theorem exists_applyCached {messages : List Value}
    (hread : ∀ message ∈ messages, Readable digest message) :
    ∃ after, cache.applyCached digest messages =
      some (messages.map (appliedTo digest cache.entries.get?), after) := by
  have hrun (lookup : Text → Option Text) (before : CompressionCache)
      (hlookup : ∀ hash, before.entries.get? hash = lookup hash) :
      ∃ after, before.applyCached digest messages =
        some (messages.map (appliedTo digest lookup), after) := by
    induction messages generalizing before with
    | nil => exact ⟨before, rfl⟩
    | cons message messages ih =>
        rw [List.forall_mem_cons] at hread
        obtain ⟨middle, hmiddle, hsame⟩ := @exists_applyMessage digest before _ hread.1
        obtain ⟨after, hafter⟩ := ih hread.2 middle fun hash => (hsame hash).trans (hlookup hash)
        refine ⟨after, ?_⟩
        rw [applyCached, hmiddle, Option.bind_eq_bind, Option.bind_some]
        dsimp only
        rw [hafter, ← funext hlookup]
        rfl
  exact hrun cache.entries.get? cache fun _ => rfl

variable {message : Value}

theorem extract_of_not_toolResult (hnot : isToolResultMessage message = false) :
    extractToolResultContent message = some none := by
  rw [isToolResultMessage] at hnot
  rw [extractToolResultContent]
  split_ifs at hnot ⊢ with hrole
  split
  · next blocks hblocks =>
    rw [hblocks] at hnot
    by_contra htext
    cases hnot.symm.trans (any_of_extractFromResults htext)
  · rfl

theorem readable_of_applyMessage {applied : Value × CompressionCache}
    (happlied : cache.applyMessage digest message = some applied) : Readable digest message := by
  cases hresult : isToolResultMessage message with
  | false =>
      have hextract := extract_of_not_toolResult hresult
      refine ⟨by rw [hextract]; rfl, fun content htext => ?_⟩
      rw [textOf, hextract] at htext
      cases htext
  | true =>
      rw [applyMessage, if_pos hresult] at happlied
      obtain ⟨read, hread, happlied⟩ := Option.bind_eq_some_iff.mp happlied
      refine ⟨by rw [hread]; rfl, fun content htext => ?_⟩
      rw [textOf, hread, Option.getD_some] at htext
      rw [htext] at happlied
      obtain ⟨hash, hhash, -⟩ := Option.bind_eq_some_iff.mp happlied
      rw [hhash]
      rfl

/-- The cache is applied to readable messages only. -/
theorem readable_of_applyCached {messages : List Value}
    {applied : List Value × CompressionCache}
    (happlied : cache.applyCached digest messages = some applied) :
    ∀ message ∈ messages, Readable digest message := by
  induction messages generalizing cache applied with
  | nil => exact fun message hmessage => absurd hmessage List.not_mem_nil
  | cons message messages ih =>
      rw [applyCached] at happlied
      obtain ⟨first, hfirst, happlied⟩ := Option.bind_eq_some_iff.mp happlied
      obtain ⟨rest, hrest, -⟩ := Option.bind_eq_some_iff.mp happlied
      exact List.forall_mem_cons.mpr ⟨readable_of_applyMessage hfirst, ih hrest⟩

/-! ## The frozen count -/

end CompressionCache

variable (digest) in
def ReadKnown (known : Text → Prop) (message : Value) : Prop :=
  ∃ hash, hashOf digest message = some hash ∧ known hash

/-- The results of the messages are known as far as they are read. -/
def PrefixKnown (digest : Text → Text) (known : Text → Prop) (messages : List Value) : Prop :=
  ∀ message ∈ messages, isToolResultMessage message = true → ReadKnown digest known message

namespace CompressionCache

/-- The count is the longest known front. -/
theorem exists_countStable {messages : List Value}
    (hread : ∀ message ∈ messages, Readable digest message) :
    ∃ count, cache.countStable digest messages = some count ∧
      ∀ size ≤ messages.length, size ≤ count ↔
        PrefixKnown digest (fun hash => cache.knows hash = true) (messages.take size) := by
  induction messages with
  | nil =>
      refine ⟨0, rfl, fun size hsize => ?_⟩
      rw [List.take_nil]
      exact iff_of_true hsize fun message hmessage => absurd hmessage List.not_mem_nil
  | cons message messages ih =>
      rw [List.forall_mem_cons] at hread
      obtain ⟨count, hcount, hfront⟩ := ih hread.2
      have hstop (hunknown : isToolResultMessage message = true ∧
          ¬ReadKnown digest (fun hash => cache.knows hash = true) message) (size : ℕ) :
          size ≤ 0 ↔ PrefixKnown digest (fun hash => cache.knows hash = true)
            ((message :: messages).take size) := by
        cases size with
        | zero => exact iff_of_true le_rfl fun message hmessage => absurd hmessage List.not_mem_nil
        | succ size =>
            refine iff_of_false (Nat.not_succ_le_zero size) fun hknown => ?_
            exact hunknown.2 (hknown message List.mem_cons_self hunknown.1)
      have hgo (hknown : isToolResultMessage message = true →
          ReadKnown digest (fun hash => cache.knows hash = true) message) (size : ℕ)
          (hsize : size ≤ (message :: messages).length) :
          size ≤ count + 1 ↔ PrefixKnown digest (fun hash => cache.knows hash = true)
            ((message :: messages).take size) := by
        cases size with
        | zero =>
            exact iff_of_true (Nat.zero_le _) fun message hmessage =>
              absurd hmessage List.not_mem_nil
        | succ size =>
            rw [Nat.succ_le_succ_iff, hfront size (Nat.le_of_succ_le_succ hsize),
              List.take_succ_cons]
            exact ⟨fun hrest => List.forall_mem_cons.mpr ⟨hknown, hrest⟩,
              fun hall => (List.forall_mem_cons.mp hall).2⟩
      rw [countStable]
      cases hresult : isToolResultMessage message with
      | false =>
          refine ⟨count + 1, ?_, hgo fun htrue => nomatch hresult.symm.trans htrue⟩
          rw [if_neg Bool.false_ne_true, hcount]
          rfl
      | true =>
          obtain ⟨⟨hsome, hencodable⟩, -⟩ := hread
          obtain ⟨read, hextract⟩ := Option.isSome_iff_exists.mp hsome
          have htext : textOf message = read := by rw [textOf, hextract, Option.getD_some]
          rw [if_pos rfl, hextract]
          cases read with
          | none =>
              refine ⟨0, rfl, fun size _ => hstop ⟨hresult, ?_⟩ size⟩
              rintro ⟨hash, hhash, -⟩
              rw [hashOf, htext] at hhash
              cases hhash
          | some content =>
              obtain ⟨hash, hhash⟩ := Option.isSome_iff_exists.mp (hencodable content htext)
              have hhashOf : hashOf digest message = some hash := by
                rw [hashOf, htext, Option.bind_some, hhash]
              dsimp only [Option.bind_eq_bind, Option.bind_some]
              rw [hhash, Option.bind_some, hcount]
              cases hknows : cache.knows hash with
              | true =>
                  refine ⟨count + 1, by rw [if_pos rfl]; rfl, hgo fun _ => ⟨hash, hhashOf, hknows⟩⟩
              | false =>
                  refine ⟨0, by rw [if_neg Bool.false_ne_true]; rfl,
                    fun size _ => hstop ⟨hresult, ?_⟩ size⟩
                  rintro ⟨other, hother, hknown⟩
                  cases hhashOf.symm.trans hother
                  cases hknows.symm.trans hknown

end CompressionCache

end

/-!
## Cached and fresh compressions

A cache that has learned a compression gives it back when every message has at most one
text that is compressed, the messages of a hash agree, and no older entry interferes.
-/

section

variable (digest : Text → Text)

/-- A result with a known text. -/
def ResultKnown (known : Text → Prop) (read : Option (Option Text)) : Prop :=
  ∃ content hash, read = some (some content) ∧ contentHash digest content = some hash ∧ known hash

/-- All the results of the messages have known texts. -/
def ResultsKnown (known : Text → Prop) (messages : List Value) : Prop :=
  ∀ message ∈ messages, ∀ read ∈ resultTexts message, ResultKnown digest known read

/-- After the compression is learned, the cache gives it back for the originals, and counts
none of them whose results are not all known. -/
def SameAsFresh (cache : CompressionCache) (originals compressed : List Value) : Prop :=
  ∃ updated applied after count, cache.updateFromResult digest originals compressed = some updated ∧
    updated.applyCached digest originals = some (applied, after) ∧
    sameItems applied compressed = true ∧
    updated.computeFrozenCount digest originals = some count ∧
    ResultsKnown digest (fun hash => updated.knows hash = true) (originals.take count)

/-- The message has one text and changes to the recorded one, or else it does not change. -/
def Replayed (lookup : Text → Option Text) (original compressed : Value) : Prop :=
  match (hashOf digest original).bind lookup with
  | some new => ∃ place, textPlace original = some place ∧ compressed = place new
  | none => compressed = original

/-- A front whose messages are known as far as they are read is known as a whole. -/
def FrontsKnown (known : Text → Prop) (messages : List Value) : Prop :=
  ∀ size < messages.length, PrefixKnown digest known (messages.take size) →
    ResultsKnown digest known (messages.take size)

variable {digest} {cache : CompressionCache}

theorem frozen_iff {messages : List Value}
    (hread : ∀ message ∈ messages, Readable digest message) :
    (∃ count, cache.computeFrozenCount digest messages = some count ∧
        ResultsKnown digest (fun hash => cache.knows hash = true) (messages.take count)) ↔
      FrontsKnown digest (fun hash => cache.knows hash = true) messages := by
  obtain ⟨stable, hstable, hfronts⟩ := @CompressionCache.exists_countStable digest cache _ hread
  have hcount : cache.computeFrozenCount digest messages =
      some (min stable (messages.length - 1)) := by
    rw [CompressionCache.computeFrozenCount, hstable]
    rfl
  constructor
  · rintro ⟨count, hfound, hknown⟩ size hsize hbegins message hmessage
    cases hcount.symm.trans hfound
    have hstable := (hfronts size hsize.le).mpr hbegins
    have hle : size ≤ min stable (messages.length - 1) := le_min hstable (Nat.le_sub_one_of_lt hsize)
    exact hknown message (List.take_subset_take_left messages hle hmessage)
  · intro hall
    refine ⟨_, hcount, ?_⟩
    cases messages with
    | nil =>
        rw [List.take_nil]
        exact fun message hmessage => absurd hmessage List.not_mem_nil
    | cons message messages =>
        refine hall _ (Nat.lt_succ_of_le (Nat.min_le_right _ _)) ?_
        exact (hfronts _ ((Nat.min_le_right _ _).trans (Nat.sub_le _ _))).mp (Nat.min_le_left _ _)

variable {lookup : Text → Option Text}

/-- A message from the cache is the compressed one when that is how it is recorded. -/
theorem appliedTo_same_iff {original compressed : Value} (hkeyed : original.WellKeyed)
    (hchange : TextOnly original compressed) :
    (appliedTo digest lookup original).same compressed = true ↔
      Replayed digest lookup original compressed := by
  rw [appliedTo, Replayed]
  cases hfound : (hashOf digest original).bind lookup with
  | none =>
      dsimp only
      rw [textOnly_same_iff hkeyed hchange]
      exact eq_comm
  | some new =>
      obtain ⟨hash, hhash, -⟩ := Option.bind_eq_some_iff.mp hfound
      obtain ⟨content, htext, -⟩ := Option.bind_eq_some_iff.mp hhash
      obtain ⟨hresult, hcontent⟩ := isToolResultMessage_of_textOf htext
      exact swap_same_iff hkeyed hresult hcontent hchange

theorem applied_same_iff {originals compressed : List Value}
    (hkeyed : ∀ message ∈ originals, message.WellKeyed)
    (hchange : List.Forall₂ TextOnly originals compressed) :
    sameItems (originals.map (appliedTo digest lookup)) compressed = true ↔
      List.Forall₂ (Replayed digest lookup) originals compressed := by
  rw [same_list_iff, List.forall₂_map_left_iff]
  induction hchange with
  | nil => exact iff_of_true .nil .nil
  | cons hfirst hrest ih =>
      rw [List.forall_mem_cons] at hkeyed
      rw [List.forall₂_cons, List.forall₂_cons, appliedTo_same_iff hkeyed.1 hfirst, ih hkeyed.2]

/-- What the cache gives back is the fresh compression exactly when all texts can be read,
each message has only the text that is recorded for it or is unchanged without one, and the
messages of a front have no other results than those that are read. -/
theorem sameAsFresh_iff {originals compressed : List Value}
    (hkeyed : ∀ message ∈ originals, message.WellKeyed)
    (hchange : List.Forall₂ TextOnly originals compressed)
    (hcapacity : cache.entries.size + originals.length ≤ cache.maxEntries) :
    SameAsFresh digest cache originals compressed ↔
      (∀ message ∈ originals, Readable digest message) ∧
        List.Forall₂ (Replayed digest (recorded digest cache (originals.zip compressed)))
          originals compressed ∧
        FrontsKnown digest (Known digest cache (originals.zip compressed)) originals := by
  have hlength := hchange.length_eq
  have hupdate (hread : ∀ message ∈ originals, Readable digest message) :
      ∃ updated, cache.updateFromResult digest originals compressed = some updated ∧
        Learns digest (originals.zip compressed) cache updated := by
    rw [CompressionCache.updateFromResult, if_neg (not_not.mpr hlength)]
    refine CompressionCache.exists_updateMessages (fun pair hpair => ?_) ?_
    · have horiginal := hread pair.1 (List.of_mem_zip hpair).1
      have hpairChange : TextOnly pair.1 pair.2 := List.forall₂_zip hchange hpair
      exact ⟨horiginal, isSome_of_textOnly hpairChange horiginal.1⟩
    · rw [List.length_zip, hlength, Nat.min_self, ← hlength]
      exact hcapacity
  have hknown {updated : CompressionCache}
      (hlearns : Learns digest (originals.zip compressed) cache updated) :
      (fun hash => updated.knows hash = true) =
        Known digest cache (originals.zip compressed) :=
    funext fun hash => propext (hlearns.knows hash)
  constructor
  · rintro ⟨updated, applied, after, count, hupdated, happlied, hsame, hcount, hresults⟩
    have hread := CompressionCache.readable_of_applyCached happlied
    obtain ⟨updated', hupdated', hlearns⟩ := hupdate hread
    cases hupdated.symm.trans hupdated'
    obtain ⟨after', happlied'⟩ := @CompressionCache.exists_applyCached digest updated _ hread
    cases happlied.symm.trans happlied'
    rw [applied_same_iff hkeyed hchange, funext hlearns.entries] at hsame
    refine ⟨hread, hsame, ?_⟩
    rw [← hknown hlearns]
    exact (frozen_iff hread).mp ⟨count, hcount, hresults⟩
  · rintro ⟨hread, hreplayed, hfronts⟩
    obtain ⟨updated, hupdated, hlearns⟩ := hupdate hread
    obtain ⟨after, happlied⟩ := @CompressionCache.exists_applyCached digest updated _ hread
    rw [← hknown hlearns] at hfronts
    obtain ⟨count, hcount, hresults⟩ := (frozen_iff hread).mpr hfronts
    refine ⟨updated, _, after, count, hupdated, happlied, ?_, hcount, hresults⟩
    rw [applied_same_iff hkeyed hchange, funext hlearns.entries]
    exact hreplayed

end

/-! ## Examples -/

def emptyCache : CompressionCache := ⟨10000, .empty, []⟩

/-- A message of the tool role. -/
def toolMessage (content : Text) : Value :=
  .dict [(text "role", .str (text "tool")), (text "content", .str content)]

theorem sameAsFresh_toolMessage :
    SameAsFresh id emptyCache [toolMessage (text "long")] [toolMessage (text "s")] := by
  have hkeyed : ∀ message ∈ [toolMessage (text "long")], message.WellKeyed := by
    intro message hmessage
    rw [List.mem_singleton.mp hmessage, toolMessage, Value.WellKeyed]
    refine ⟨?_, wellKeyedEntries_iff.mpr fun entry hentry => ?_⟩
    · change [text "role", text "content"].Nodup
      decide
    · rcases List.mem_cons.mp hentry with rfl | hentry
      · exact Value.wellKeyed_str _
      · rw [List.mem_singleton.mp hentry]
        exact Value.wellKeyed_str _
  have hchange : TextOnly (toolMessage (text "long")) (toolMessage (text "s")) :=
    .tool rfl ⟨.str (text "long"), .str (text "s"), rfl, rfl, .text _ _⟩
  refine (sameAsFresh_iff hkeyed (.cons hchange .nil) (by decide)).mpr ⟨?_, ?_, ?_⟩
  · intro message hmessage
    rw [List.mem_singleton.mp hmessage]
    refine ⟨rfl, fun content hcontent => ?_⟩
    cases hcontent
    rfl
  · exact .cons ⟨_, rfl, rfl⟩ .nil
  · intro size hsize _ message hmessage
    rw [Nat.lt_one_iff.mp hsize] at hmessage
    exact absurd hmessage List.not_mem_nil

/-- A message with two tool results. -/
def twoResults (first second : Text) : Value :=
  .dict [(text "role", .str (text "user")), (text "content", .list [
    .dict [(text "type", .str (text "tool_result")), (text "content", .str first)],
    .dict [(text "type", .str (text "tool_result")), (text "content", .str second)]])]

/-- The compressed text of a second result is not put back. -/
theorem twoResults_stale :
    TextOnly (twoResults (text "one") (text "long")) (twoResults (text "one") (text "s")) ∧
      ¬SameAsFresh id emptyCache [twoResults (text "one") (text "long")]
        [twoResults (text "one") (text "s")] := by
  constructor
  · refine .results rfl rfl (.cons (Or.inl rfl) (.cons (Or.inr ⟨rfl, ?_⟩) .nil))
    exact ⟨.str (text "long"), .str (text "s"), rfl, rfl, .text _ _⟩
  · rintro ⟨updated, applied, after, count, hupdated, happlied, hsame, -⟩
    cases hupdated
    cases happlied
    cases hsame

end Legroom.Cache
