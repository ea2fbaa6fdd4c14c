import Mathlib.Algebra.Order.BigOperators.Group.List
import Legroom.Cache.MessageBreakpoints

/-!
# Ownership of breakpoints

Both functions change nothing but markers.  They bound the markers if and only if none is below
the level of the blocks.
-/

namespace Legroom.Cache.Breakpoints

open Python

/-! ## Blocks -/

variable (items : List Value)

theorem markersItems_eq_sum : markersItems items = totalMarkers items := by
  induction items with
  | nil => rfl
  | cons item items ih => rw [markersItems, ih, totalMarkers, totalMarkers, List.map_cons,
      List.sum_cons]

theorem stripItems_eq_map : stripItems items = items.map stripCacheControl := by
  induction items with
  | nil => rfl
  | cons item items ih => rw [stripItems, ih, List.map_cons]

variable {block : Value}

theorem withoutMarker_of_not_hasMarker (hmarker : hasMarker block = false) :
    withoutMarker block = block := by
  cases block with
  | dict entries =>
      rw [hasMarker, Option.isSome_eq_false_iff, Option.isNone_iff_eq_none] at hmarker
      rw [withoutMarker, List.filter_eq_self.mpr fun entry hentry => ?_]
      refine decide_eq_true fun hkey => ?_
      have hother := List.lookup_eq_none_iff.mp hmarker entry hentry
      exact absurd hkey.symm (bne_iff_ne.mp hother)
  | _ => rfl

theorem hasMarker_withoutMarker (block : Value) : hasMarker (withoutMarker block) = false := by
  cases block with
  | dict entries =>
      rw [hasMarker, Option.isSome_eq_false_iff, Option.isNone_iff_eq_none]
      refine List.lookup_eq_none_iff.mpr fun entry hentry => ?_
      obtain ⟨-, hkey⟩ := List.mem_filter.mp hentry
      exact bne_iff_ne.mpr (Ne.symm (of_decide_eq_true hkey))
  | _ => rfl

theorem isDict_withoutMarker (block : Value) : (withoutMarker block).isDict = block.isDict := by
  cases block <;> rfl

variable {key : Text}

theorem filter_setEntry (new : Value) (entries : List (Text × Value)) :
    (setEntry key new entries).filter (fun entry => entry.1 ≠ key) =
      entries.filter fun entry => entry.1 ≠ key := by
  induction entries with
  | nil => exact List.filter_cons_of_neg (by simp)
  | cons entry entries ih =>
      rw [setEntry]
      by_cases hentry : entry.1 = key
      · rw [if_pos hentry, List.filter_cons_of_neg (by simp),
          List.filter_cons_of_neg (by simp [hentry])]
      · rw [if_neg hentry, List.filter_cons_of_pos (by simp [hentry]),
          List.filter_cons_of_pos (by simp [hentry]), ih]

/-- A marker that is put on a block is taken off again. -/
theorem withoutMarker_marked (block : Value) :
    withoutMarker (marked block) = withoutMarker block := by
  cases block with
  | dict entries => exact congrArg Value.dict (filter_setEntry _ entries)
  | _ => rfl

variable {message : Value} {blocks : List Value}

theorem get_of_blockList (hblocks : blockList message = some blocks) :
    message.get (text "content") = some (.list blocks) := by
  obtain ⟨content, hcontent, hlist⟩ := Option.bind_eq_some_iff.mp hblocks
  cases content with
  | list items =>
      cases hlist
      exact hcontent
  | _ => cases hlist

theorem blockList_put (hblocks : blockList message = some blocks) (new : List Value) :
    blockList (message.put (text "content") (.list new)) = some new := by
  rw [blockList, Value.get_put (Value.isDict_of_get (get_of_blockList hblocks)), if_pos rfl]
  rfl

/-! ## What stays -/

theorem stripEntries_setEntry_marker (new : Value) (entries : List (Text × Value)) :
    stripEntries (setEntry cacheControl new entries) = stripEntries entries := by
  induction entries with
  | nil =>
      rw [setEntry]
      exact if_pos rfl
  | cons entry entries ih =>
      obtain ⟨key, value⟩ := entry
      rw [setEntry]
      by_cases hkey : key = cacheControl
      · rw [if_pos hkey, stripEntries, if_pos rfl, stripEntries, if_pos hkey]
      · rw [if_neg hkey, stripEntries, if_neg hkey, ih, stripEntries, if_neg hkey]

variable {old : Value} {entries : List (Text × Value)}

theorem stripEntries_setEntry {new : Value} (hold : entries.lookup key = some old)
    (hsame : stripCacheControl new = stripCacheControl old) :
    stripEntries (setEntry key new entries) = stripEntries entries := by
  induction entries with
  | nil => cases hold
  | cons entry entries ih =>
      obtain ⟨other, value⟩ := entry
      rw [List.lookup_cons] at hold
      rw [setEntry]
      by_cases hkey : other = key
      · rw [beq_iff_eq.mpr hkey.symm] at hold
        obtain rfl := Option.some_inj.mp hold
        rw [if_pos hkey, stripEntries, stripEntries, hsame, hkey]
      · rw [beq_eq_false_iff_ne.mpr (Ne.symm hkey)] at hold
        rw [if_neg hkey, stripEntries, stripEntries, ih hold]

theorem stripCacheControl_put {new : Value} (hold : message.get key = some old)
    (hsame : stripCacheControl new = stripCacheControl old) :
    stripCacheControl (message.put key new) = stripCacheControl message := by
  cases message with
  | dict entries => exact congrArg Value.dict (stripEntries_setEntry hold hsame)
  | _ => rfl

theorem stripEntries_filter (entries : List (Text × Value)) :
    stripEntries (entries.filter fun entry => entry.1 ≠ cacheControl) = stripEntries entries := by
  induction entries with
  | nil => rfl
  | cons entry entries ih =>
      obtain ⟨key, value⟩ := entry
      by_cases hkey : key = cacheControl
      · rw [List.filter_cons_of_neg (by simp [hkey]), ih, stripEntries, if_pos hkey]
      · rw [List.filter_cons_of_pos (by simp [hkey]), stripEntries, if_neg hkey, ih, stripEntries,
          if_neg hkey]

theorem stripCacheControl_withoutMarker (block : Value) :
    stripCacheControl (withoutMarker block) = stripCacheControl block := by
  cases block with
  | dict entries => exact congrArg Value.dict (stripEntries_filter entries)
  | _ => rfl

theorem stripCacheControl_marked (block : Value) :
    stripCacheControl (marked block) = stripCacheControl block := by
  cases block with
  | dict entries => exact congrArg Value.dict (stripEntries_setEntry_marker _ entries)
  | _ => rfl

theorem map_modify_of_eq {α β : Type} {view : α → β} {change : α → α}
    (hsame : ∀ item, view (change item) = view item) (items : List α) (index : ℕ) :
    (items.modify index change).map view = items.map view := by
  induction items generalizing index with
  | nil => rw [List.modify_nil]
  | cons item items ih =>
      cases index with
      | zero => rw [List.modify_zero_cons, List.map_cons, List.map_cons, hsame]
      | succ index => rw [List.modify_succ_cons, List.map_cons, List.map_cons, ih]

/-- Contents whose blocks differ in markers. -/
theorem stripCacheControl_putBlocks {new : List Value} (hblocks : blockList message = some blocks)
    (hsame : SameButMarkers blocks new) :
    stripCacheControl (message.put (text "content") (.list new)) = stripCacheControl message := by
  refine stripCacheControl_put (get_of_blockList hblocks) (congrArg Value.list ?_)
  rw [stripItems_eq_map, stripItems_eq_map, hsame]

theorem stripCacheControl_stripMessage (message : Value) :
    stripCacheControl (stripMessage message) = stripCacheControl message := by
  rw [stripMessage]
  split_ifs with hhad
  · cases hblocks : blockList message with
    | none =>
        rw [hadMarker, hblocks] at hhad
        exact absurd hhad Bool.false_ne_true
    | some blocks =>
        refine stripCacheControl_putBlocks hblocks ?_
        rw [SameButMarkers, Option.getD_some, List.map_map]
        exact List.map_congr_left fun block _ => (stripCacheControl_withoutMarker block).symm
  · rfl

theorem stripCacheControl_markLast (message : Value) :
    stripCacheControl (markLast message) = stripCacheControl message := by
  rw [markLast]
  split
  · next blocks hblocks =>
      exact stripCacheControl_putBlocks hblocks
        (map_modify_of_eq stripCacheControl_marked blocks _).symm
  · rfl

theorem sameButMarkers_strip (messages : List Value) :
    SameButMarkers messages (messages.map stripMessage) := by
  rw [SameButMarkers, List.map_map]
  exact List.map_congr_left fun message _ => (stripCacheControl_stripMessage message).symm

theorem sameButMarkers_place (messages : List Value) :
    SameButMarkers messages (placeBreakpoint messages) := by
  induction messages with
  | nil => rfl
  | cons message messages ih =>
      rw [placeBreakpoint]
      split_ifs
      · exact congrArg (_ :: ·) ih
      · exact congrArg (· :: _) (stripCacheControl_markLast message).symm
      · rfl

/-! ## Counts -/

theorem markers_of_list : markers (.list items) = totalMarkers items := by
  rw [markers, markersItems_eq_sum]

/-- What an entry counts is exchanged. -/
theorem markersEntries_setEntry (hold : entries.lookup key = some old) (new : Value) :
    markersEntries (setEntry key new entries) + markers old =
      markersEntries entries + markers new := by
  induction entries with
  | nil => cases hold
  | cons entry entries ih =>
      obtain ⟨other, value⟩ := entry
      rw [List.lookup_cons] at hold
      rw [setEntry]
      by_cases hkey : other = key
      · rw [beq_iff_eq.mpr hkey.symm] at hold
        obtain rfl := Option.some_inj.mp hold
        rw [if_pos hkey, markersEntries, markersEntries, hkey]
        omega
      · rw [beq_eq_false_iff_ne.mpr (Ne.symm hkey)] at hold
        rw [if_neg hkey, markersEntries, markersEntries]
        have hrest := ih hold
        omega

theorem markers_put (hold : message.get key = some old) (new : Value) :
    markers (message.put key new) + markers old = markers message + markers new := by
  cases message with
  | dict entries => exact markersEntries_setEntry hold new
  | _ => cases hold

theorem markersEntries_setEntry_new (hnone : entries.lookup key = none) (new : Value) :
    markersEntries (setEntry key new entries) =
      markersEntries entries + (if key = cacheControl then 1 else 0) + markers new := by
  induction entries with
  | nil =>
      simp only [setEntry, markersEntries]
      omega
  | cons entry entries ih =>
      obtain ⟨other, value⟩ := entry
      rw [List.lookup_cons] at hnone
      rw [setEntry]
      by_cases hkey : other = key
      · rw [beq_iff_eq.mpr hkey.symm] at hnone
        cases hnone
      · rw [beq_eq_false_iff_ne.mpr (Ne.symm hkey)] at hnone
        rw [if_neg hkey, markersEntries, markersEntries, ih hnone]
        omega

/-- A block that had no marker has one more. -/
theorem markers_marked (hdict : block.isDict = true) (hmarker : hasMarker block = false) :
    markers (marked block) = markers block + 1 := by
  cases block with
  | dict entries =>
      rw [hasMarker, Option.isSome_eq_false_iff, Option.isNone_iff_eq_none] at hmarker
      exact markersEntries_setEntry_new hmarker _
  | _ => cases hdict

theorem markers_marked_le (block : Value) : markers (marked block) ≤ markers block + 1 := by
  cases hmarker : hasMarker block with
  | true =>
      obtain ⟨old, hold⟩ := Option.isSome_iff_exists.mp hmarker
      have hput := markers_put hold (.dict [(text "type", .str (text "ephemeral"))])
      have hnew : markers (.dict [(text "type", .str (text "ephemeral"))]) = 0 := by decide
      rw [marked]
      omega
  | false =>
      cases hdict : block.isDict with
      | true => exact (markers_marked hdict hmarker).le
      | false =>
          have hsame : marked block = block := by
            cases block with
            | dict entries => cases hdict
            | _ => rfl
          rw [hsame]
          exact Nat.le_succ _

theorem sum_modify {α : Type} (count : α → ℕ) (change : α → α) {items : List α} {index : ℕ}
    {item : α} (hitem : items[index]? = some item) :
    ((items.modify index change).map count).sum + count item =
      (items.map count).sum + count (change item) := by
  induction items generalizing index with
  | nil => cases hitem
  | cons first items ih =>
      cases index with
      | zero =>
          obtain rfl := Option.some_inj.mp hitem
          rw [List.modify_zero_cons, List.map_cons, List.map_cons, List.sum_cons, List.sum_cons]
          omega
      | succ index =>
          rw [List.modify_succ_cons, List.map_cons, List.map_cons, List.sum_cons, List.sum_cons]
          have hrest := ih hitem
          omega

/-- Marking the last block of a content. -/
theorem markers_markLast {last : Value} (hblocks : blockList message = some blocks)
    (hlast : blocks.getLast? = some last) :
    markers (markLast message) + markers last = markers message + markers (marked last) := by
  have hindex : blocks[blocks.length - 1]? = some last := by
    rw [← List.getLast?_eq_getElem?, hlast]
  have hput := markers_put (get_of_blockList hblocks)
    (.list (blocks.modify (blocks.length - 1) marked))
  have hsum := sum_modify markers marked hindex
  rw [markers_of_list, markers_of_list, totalMarkers, totalMarkers] at hput
  rw [markLast, hblocks]
  change markers (message.put (text "content") (.list (blocks.modify _ marked))) + _ = _
  omega

theorem exists_last_of_endsInDict (hends : endsInDict message = true) :
    ∃ blocks last, blockList message = some blocks ∧ blocks.getLast? = some last ∧
      last.isDict = true := by
  obtain ⟨last, hlast, hdict⟩ := (Option.any_eq_true _ _).mp hends
  obtain ⟨blocks, hblocks, hlast⟩ := Option.bind_eq_some_iff.mp hlast
  exact ⟨blocks, last, hblocks, hlast, hdict⟩

theorem markers_markLast_le (message : Value) (hends : endsInDict message = true) :
    markers (markLast message) ≤ markers message + 1 := by
  obtain ⟨blocks, last, hblocks, hlast, -⟩ := exists_last_of_endsInDict hends
  have hmarkers := markers_markLast hblocks hlast
  have hle := markers_marked_le last
  omega

/-! ## Messages that are stripped -/

theorem markersEntries_eq_hiddenEntries
    (hcontent : ∀ blocks, entries.lookup (text "content") ≠ some (.list blocks)) :
    markersEntries entries = hiddenEntries entries := by
  induction entries with
  | nil => rfl
  | cons entry entries ih =>
      obtain ⟨key, value⟩ := entry
      rw [markersEntries, hiddenEntries]
      by_cases hkey : key = text "content"
      · have hvalue : hiddenInContent value = markers value := by
          cases value with
          | list blocks =>
              refine absurd ?_ (hcontent blocks)
              rw [List.lookup_cons, beq_iff_eq.mpr hkey.symm]
          | _ => rfl
        rw [if_pos hkey, hvalue, if_neg (by rw [hkey]; decide), Nat.zero_add]
      · rw [if_neg hkey, ih fun blocks hlookup => ?_]
        refine hcontent blocks ?_
        rw [List.lookup_cons, beq_eq_false_iff_ne.mpr (Ne.symm hkey)]
        exact hlookup

theorem markersEntries_setBlocks (hcontent : entries.lookup (text "content") = some (.list
      blocks)) :
    markersEntries (setEntry (text "content") (.list (blocks.map withoutMarker)) entries) =
      hiddenEntries entries := by
  induction entries with
  | nil => cases hcontent
  | cons entry entries ih =>
      obtain ⟨key, value⟩ := entry
      rw [List.lookup_cons] at hcontent
      rw [setEntry, hiddenEntries]
      by_cases hkey : key = text "content"
      · rw [beq_iff_eq.mpr hkey.symm] at hcontent
        obtain rfl := Option.some_inj.mp hcontent
        rw [if_pos hkey, if_pos hkey, markersEntries, if_neg (by decide), Nat.zero_add,
          markers_of_list, totalMarkers, List.map_map]
        rfl
      · rw [beq_eq_false_iff_ne.mpr (Ne.symm hkey)] at hcontent
        rw [if_neg hkey, if_neg hkey, markersEntries, ih hcontent]

/-- Blocks that have no marker. -/
theorem map_withoutMarker_eq_self (hmarker : blocks.any hasMarker = false) :
    blocks.map withoutMarker = blocks := by
  refine (List.map_congr_left fun block hblock => ?_).trans (List.map_id blocks)
  exact withoutMarker_of_not_hasMarker
    (Bool.eq_false_iff.mpr (List.any_eq_false.mp hmarker block hblock))

theorem stripMessage_of_blockList (hblocks : blockList message = some blocks) :
    stripMessage message = message.put (text "content") (.list (blocks.map withoutMarker)) := by
  rw [stripMessage, hadMarker, hblocks, Option.getD_some]
  cases hmarker : blocks.any hasMarker with
  | true => rfl
  | false =>
      rw [map_withoutMarker_eq_self hmarker, Value.put_self (get_of_blockList hblocks)]
      rfl

theorem stripMessage_of_none (hnone : blockList message = none) :
    stripMessage message = message := by
  rw [stripMessage, hadMarker, hnone]
  rfl

/-- A stripped message has its hidden markers only. -/
theorem markers_stripMessage (message : Value) :
    markers (stripMessage message) = hidden message := by
  cases hblocks : blockList message with
  | some blocks =>
      have hget := get_of_blockList hblocks
      rw [stripMessage_of_blockList hblocks]
      cases message with
      | dict entries => exact markersEntries_setBlocks hget
      | _ => cases hget
  | none =>
      rw [stripMessage_of_none hblocks]
      cases message with
      | dict entries =>
          refine markersEntries_eq_hiddenEntries fun blocks hlookup => ?_
          have hget : Value.get (text "content") (.dict entries) = some (.list blocks) := hlookup
          rw [blockList, hget] at hblocks
          cases hblocks
      | _ => rfl

theorem totalMarkers_strip (messages : List Value) :
    totalMarkers (messages.map stripMessage) = totalHidden messages := by
  rw [totalMarkers, List.map_map, totalHidden]
  exact congrArg List.sum (List.map_congr_left fun message _ => markers_stripMessage message)

theorem blockList_stripMessage (message : Value) :
    blockList (stripMessage message) =
      (blockList message).map fun blocks => blocks.map withoutMarker := by
  cases hblocks : blockList message with
  | some blocks => rw [stripMessage_of_blockList hblocks, blockList_put hblocks, Option.map_some]
  | none => rw [stripMessage_of_none hblocks, hblocks, Option.map_none]

theorem hadMarker_stripMessage (message : Value) : hadMarker (stripMessage message) = false := by
  rw [hadMarker, blockList_stripMessage, List.any_eq_false]
  intro block hblock
  cases hblocks : blockList message with
  | some blocks =>
      rw [hblocks, Option.map_some, Option.getD_some] at hblock
      obtain ⟨other, -, rfl⟩ := List.mem_map.mp hblock
      exact Bool.eq_false_iff.mp (hasMarker_withoutMarker other)
  | none =>
      rw [hblocks] at hblock
      exact absurd hblock List.not_mem_nil

theorem stripMessage_of_not_hadMarker (hhad : hadMarker message = false) :
    stripMessage message = message := by
  rw [stripMessage, hhad]
  rfl

theorem endsInDict_stripMessage (message : Value) :
    endsInDict (stripMessage message) = endsInDict message := by
  rw [endsInDict, blockList_stripMessage, endsInDict]
  cases blockList message with
  | some blocks =>
      rw [Option.map_some, Option.bind_some, Option.bind_some, List.getLast?_map]
      cases blocks.getLast? with
      | some last => exact isDict_withoutMarker last
      | none => rfl
  | none => rfl

theorem any_endsInDict_strip (messages : List Value) :
    (messages.map stripMessage).any endsInDict = messages.any endsInDict := by
  rw [List.any_map]
  exact congrArg messages.any (funext endsInDict_stripMessage)

/-! ## One marker -/

theorem totalMarkers_cons (message : Value) (messages : List Value) :
    totalMarkers (message :: messages) = markers message + totalMarkers messages := by
  rw [totalMarkers, List.map_cons, List.sum_cons, totalMarkers]

/-- Marking a message whose blocks have no marker. -/
theorem markers_markLast_of_not_hadMarker (hends : endsInDict message = true)
    (hhad : hadMarker message = false) : markers (markLast message) = markers message + 1 := by
  obtain ⟨blocks, last, hblocks, hlast, hdict⟩ := exists_last_of_endsInDict hends
  rw [hadMarker, hblocks, Option.getD_some, List.any_eq_false] at hhad
  have hmarker := Bool.eq_false_iff.mpr (hhad last (List.mem_of_getLast? hlast))
  have hmarkers := markers_markLast hblocks hlast
  rw [markers_marked hdict hmarker] at hmarkers
  omega

variable {messages : List Value}

theorem totalMarkers_place (hhad : ∀ message ∈ messages, hadMarker message = false) :
    totalMarkers (placeBreakpoint messages) =
      totalMarkers messages + if messages.any endsInDict then 1 else 0 := by
  induction messages with
  | nil => rfl
  | cons message messages ih =>
      obtain ⟨hfirst, hrest⟩ := List.forall_mem_cons.mp hhad
      rw [placeBreakpoint, List.any_cons]
      cases hany : messages.any endsInDict with
      | true =>
          rw [if_pos rfl, Bool.or_true, totalMarkers_cons, totalMarkers_cons, ih hrest, hany]
          exact (Nat.add_assoc _ _ _).symm
      | false =>
          rw [if_neg Bool.false_ne_true, Bool.or_false]
          cases hends : endsInDict message with
          | true =>
              rw [if_pos rfl, if_pos rfl, totalMarkers_cons, totalMarkers_cons,
                markers_markLast_of_not_hadMarker hends hfirst]
              omega
          | false => rfl

theorem totalMarkers_place_le (messages : List Value) :
    totalMarkers (placeBreakpoint messages) ≤ totalMarkers messages + 1 := by
  induction messages with
  | nil => exact Nat.zero_le _
  | cons message messages ih =>
      rw [placeBreakpoint]
      split_ifs with hany hends
      · rw [totalMarkers_cons, totalMarkers_cons]
        omega
      · have hle := markers_markLast_le message hends
        rw [totalMarkers_cons, totalMarkers_cons]
        omega
      · exact Nat.le_succ _

theorem place_of_none (hnone : messages.any endsInDict = false) :
    placeBreakpoint messages = messages := by
  cases messages with
  | nil => rfl
  | cons message messages =>
      rw [List.any_cons, Bool.or_eq_false_iff] at hnone
      rw [placeBreakpoint, hnone.1, hnone.2]
      rfl

theorem map_stripMessage_of_none (hnone : messages.any hadMarker = false) :
    messages.map stripMessage = messages := by
  refine (List.map_congr_left fun message hmessage => ?_).trans (List.map_id messages)
  exact stripMessage_of_not_hadMarker
    (Bool.eq_false_iff.mpr (List.any_eq_false.mp hnone message hmessage))

/-- All markers are taken off, and one is placed if there is a place. -/
theorem normalize_eq (messages : List Value) :
    normalizeMessageCacheControl messages = placeBreakpoint (messages.map stripMessage) := by
  rw [normalizeMessageCacheControl]
  cases hany : (messages.map stripMessage).any endsInDict with
  | true => rfl
  | false =>
      rw [place_of_none hany]
      cases hhad : messages.any hadMarker with
      | true => rfl
      | false => exact (map_stripMessage_of_none hhad).symm

theorem totalMarkers_normalize (messages : List Value) :
    totalMarkers (normalizeMessageCacheControl messages) =
      totalHidden messages + if messages.any endsInDict then 1 else 0 := by
  rw [normalize_eq, totalMarkers_place, totalMarkers_strip, any_endsInDict_strip]
  intro message hmessage
  obtain ⟨other, -, rfl⟩ := List.mem_map.mp hmessage
  exact hadMarker_stripMessage other

theorem sameButMarkers_normalize (messages : List Value) :
    SameButMarkers messages (normalizeMessageCacheControl messages) := by
  rw [normalize_eq]
  exact (sameButMarkers_strip messages).trans (sameButMarkers_place _)

/-- Stripping takes the placed marker off again. -/
theorem stripMessage_markLast (message : Value) :
    stripMessage (markLast message) = stripMessage message := by
  cases hblocks : blockList message with
  | none =>
      rw [markLast, hblocks]
  | some blocks =>
      have hmark : markLast message =
          message.put (text "content") (.list (blocks.modify (blocks.length - 1) marked)) := by
        rw [markLast, hblocks]
      rw [hmark, stripMessage_of_blockList (blockList_put hblocks _), Value.put_put,
        map_modify_of_eq withoutMarker_marked, stripMessage_of_blockList hblocks]

theorem map_stripMessage_place (messages : List Value) :
    (placeBreakpoint messages).map stripMessage = messages.map stripMessage := by
  induction messages with
  | nil => rfl
  | cons message messages ih =>
      rw [placeBreakpoint]
      split_ifs
      · rw [List.map_cons, List.map_cons, ih]
      · rw [List.map_cons, List.map_cons, stripMessage_markLast]
      · rfl

theorem normalize_idempotent (messages : List Value) :
    normalizeMessageCacheControl (normalizeMessageCacheControl messages) =
      normalizeMessageCacheControl messages := by
  rw [normalize_eq, normalize_eq, map_stripMessage_place, List.map_map]
  exact congrArg placeBreakpoint (List.map_congr_left fun message _ =>
    stripMessage_of_not_hadMarker (hadMarker_stripMessage message))

/-! ## Held Reads -/

theorem reanchor_eq (hdicts : ∀ message ∈ messages, message.isDict = true) :
    reanchor messages = some (placeBreakpoint messages) := by
  induction messages with
  | nil => rfl
  | cons message messages ih =>
      obtain ⟨hfirst, hrest⟩ := List.forall_mem_cons.mp hdicts
      rw [reanchor, placeBreakpoint, ih hrest, hfirst, List.all_eq_true.mpr hrest,
        Bool.and_self, if_pos rfl]
      split_ifs <;> rfl

/-- What is relocated, if it is relocated at all. -/
theorem relocate_eq {holdingMsgIndices : List ℕ} {earliest : ℕ}
    (hdicts : ∀ message ∈ messages, message.isDict = true)
    (hearliest : holdingMsgIndices.min? = some earliest) :
    relocateCacheBreakpoint messages holdingMsgIndices =
      some ((if (messages.drop earliest).any hadMarker then
        placeBreakpoint (messages.take earliest) else messages.take earliest) ++
          (messages.drop earliest).map stripMessage) := by
  have hheld : (messages.drop earliest).all Value.isDict = true :=
    List.all_eq_true.mpr fun message hmessage => hdicts message (List.mem_of_mem_drop hmessage)
  rw [relocateCacheBreakpoint, hearliest]
  change (if (!(messages.drop earliest).all Value.isDict) = true then none
    else if (!(messages.drop earliest).any hadMarker) = true then _ else _) = _
  rw [hheld]
  cases (messages.drop earliest).any hadMarker with
  | false => rfl
  | true =>
      rw [reanchor_eq fun message hmessage => hdicts message (List.mem_of_mem_take hmessage)]
      rfl

theorem length_place (messages : List Value) :
    (placeBreakpoint messages).length = messages.length := by
  have hsame := congrArg List.length (sameButMarkers_place messages)
  rw [List.length_map, List.length_map] at hsame
  exact hsame.symm

theorem totalMarkers_append (left right : List Value) :
    totalMarkers (left ++ right) = totalMarkers left + totalMarkers right := by
  rw [totalMarkers, List.map_append, List.sum_append, totalMarkers, totalMarkers]

theorem markersEntries_filter_le (entries : List (Text × Value)) :
    markersEntries (entries.filter fun entry => entry.1 ≠ cacheControl) ≤
      markersEntries entries := by
  induction entries with
  | nil => exact le_rfl
  | cons entry entries ih =>
      obtain ⟨key, value⟩ := entry
      rw [markersEntries]
      by_cases hkey : key = cacheControl
      · rw [List.filter_cons_of_neg (by simp [hkey])]
        omega
      · rw [List.filter_cons_of_pos (by simp [hkey]), markersEntries]
        omega

theorem markersEntries_filter_lt (hmarker : (entries.lookup cacheControl).isSome = true) :
    markersEntries (entries.filter fun entry => entry.1 ≠ cacheControl) <
      markersEntries entries := by
  induction entries with
  | nil => cases hmarker
  | cons entry entries ih =>
      obtain ⟨key, value⟩ := entry
      rw [markersEntries]
      by_cases hkey : key = cacheControl
      · have hle := markersEntries_filter_le entries
        rw [List.filter_cons_of_neg (by simp [hkey]), if_pos hkey]
        omega
      · rw [List.lookup_cons, beq_eq_false_iff_ne.mpr (Ne.symm hkey)] at hmarker
        have hlt := ih hmarker
        rw [List.filter_cons_of_pos (by simp [hkey]), markersEntries]
        omega

theorem markers_withoutMarker_le (block : Value) :
    markers (withoutMarker block) ≤ markers block := by
  cases block with
  | dict entries => exact markersEntries_filter_le entries
  | _ => exact le_rfl

theorem markers_withoutMarker_lt (hmarker : hasMarker block = true) :
    markers (withoutMarker block) < markers block := by
  cases block with
  | dict entries => exact markersEntries_filter_lt hmarker
  | _ => cases hmarker

/-- A message loses what its blocks lose. -/
theorem hidden_add (hblocks : blockList message = some blocks) :
    hidden message + totalMarkers blocks =
      markers message + totalMarkers (blocks.map withoutMarker) := by
  rw [← markers_stripMessage, stripMessage_of_blockList hblocks, ← markers_of_list,
    ← markers_of_list]
  exact markers_put (get_of_blockList hblocks) _

theorem hidden_le (message : Value) : hidden message ≤ markers message := by
  cases hblocks : blockList message with
  | none => rw [← markers_stripMessage, stripMessage_of_none hblocks]
  | some blocks =>
      have hadd := hidden_add hblocks
      have hle : totalMarkers (blocks.map withoutMarker) ≤ totalMarkers blocks := by
        rw [totalMarkers, List.map_map]
        exact List.sum_le_sum fun block _ => markers_withoutMarker_le block
      omega

theorem hidden_lt (hhad : hadMarker message = true) : hidden message < markers message := by
  cases hblocks : blockList message with
  | none =>
      rw [hadMarker, hblocks] at hhad
      cases hhad
  | some blocks =>
      rw [hadMarker, hblocks, Option.getD_some, List.any_eq_true] at hhad
      obtain ⟨block, hblock, hmarker⟩ := hhad
      have hadd := hidden_add hblocks
      have hlt : totalMarkers (blocks.map withoutMarker) < totalMarkers blocks := by
        rw [totalMarkers, List.map_map]
        exact List.sum_lt_sum _ _ (fun block _ => markers_withoutMarker_le block)
          ⟨block, hblock, markers_withoutMarker_lt hmarker⟩
      omega

theorem totalHidden_le (messages : List Value) : totalHidden messages ≤ totalMarkers messages :=
  List.sum_le_sum fun message _ => hidden_le message

theorem totalHidden_lt (hhad : messages.any hadMarker = true) :
    totalHidden messages < totalMarkers messages := by
  obtain ⟨message, hmessage, hhad⟩ := List.any_eq_true.mp hhad
  exact List.sum_lt_sum _ _ (fun message _ => hidden_le message) ⟨message, hmessage, hidden_lt hhad⟩

/-- At least one marker is taken off for the one that is placed. -/
theorem relocated_le (earliest : ℕ) :
    totalMarkers ((if (messages.drop earliest).any hadMarker then
        placeBreakpoint (messages.take earliest) else messages.take earliest) ++
      (messages.drop earliest).map stripMessage) ≤ totalMarkers messages := by
  have hsplit : totalMarkers messages =
      totalMarkers (messages.take earliest) + totalMarkers (messages.drop earliest) := by
    rw [← totalMarkers_append, List.take_append_drop]
  rw [totalMarkers_append, totalMarkers_strip, hsplit]
  split_ifs with hhad
  · have hplaced := totalMarkers_place_le (messages.take earliest)
    have hstripped := totalHidden_lt hhad
    omega
  · exact Nat.add_le_add_left (totalHidden_le _) _

theorem sameButMarkers_relocated (messages : List Value) (earliest : ℕ) :
    SameButMarkers messages ((if (messages.drop earliest).any hadMarker then
        placeBreakpoint (messages.take earliest) else messages.take earliest) ++
      (messages.drop earliest).map stripMessage) := by
  have hleading : SameButMarkers (messages.take earliest)
      (if (messages.drop earliest).any hadMarker then placeBreakpoint (messages.take earliest)
        else messages.take earliest) := by
    split_ifs
    · exact sameButMarkers_place _
    · rfl
  rw [SameButMarkers, List.map_append, ← hleading, ← sameButMarkers_strip, ← List.map_append,
    List.take_append_drop]

/-- The held messages have their hidden markers only. -/
theorem totalMarkers_held (messages : List Value) (earliest : ℕ) :
    totalMarkers (((if (messages.drop earliest).any hadMarker then
        placeBreakpoint (messages.take earliest) else messages.take earliest) ++
      (messages.drop earliest).map stripMessage).drop earliest) =
      totalHidden (messages.drop earliest) := by
  have hlength : (if (messages.drop earliest).any hadMarker then
      placeBreakpoint (messages.take earliest) else messages.take earliest).length =
        min earliest messages.length := by
    split_ifs
    · rw [length_place, List.length_take]
    · exact List.length_take
  rw [List.drop_append, List.drop_of_length_le (hlength.trans_le (min_le_left _ _)), hlength,
    List.nil_append, ← totalMarkers_strip]
  rcases Nat.le_total earliest messages.length with hle | hle
  · rw [min_eq_left hle, Nat.sub_self, List.drop_zero]
  · rw [List.drop_of_length_le hle, List.map_nil, List.drop_nil]

/-- The markers are bounded if and only if none that is hidden is in the way. -/
theorem ownsBreakpoints_iff {messages : List Value}
    (hdicts : ∀ message ∈ messages, message.isDict = true) (holdingMsgIndices : List ℕ) :
    OwnsBreakpoints messages holdingMsgIndices ↔
      totalHidden messages + (if messages.any endsInDict then 1 else 0) ≤ 1 ∧
        ∀ earliest ∈ holdingMsgIndices.min?, totalHidden (messages.drop earliest) = 0 := by
  constructor
  · intro howns
    refine ⟨totalMarkers_normalize messages ▸ howns.atMostOne, fun earliest hearliest => ?_⟩
    obtain ⟨behind, hbehind, -, hheld, -⟩ := howns.relocated
    rw [relocate_eq hdicts hearliest] at hbehind
    obtain rfl := Option.some_inj.mp hbehind
    exact (totalMarkers_held messages earliest).symm.trans (hheld earliest hearliest)
  · rintro ⟨hone, hheld⟩
    refine ⟨sameButMarkers_normalize messages, (totalMarkers_normalize messages).symm ▸ hone,
      normalize_idempotent messages, ?_⟩
    cases hearliest : holdingMsgIndices.min? with
    | none =>
        refine ⟨messages, ?_, rfl, fun _ hmem => absurd hmem (Option.not_mem_none _), le_rfl⟩
        rw [relocateCacheBreakpoint, hearliest]
    | some earliest =>
        refine ⟨_, relocate_eq hdicts hearliest, sameButMarkers_relocated messages earliest, ?_,
          relocated_le earliest⟩
        rintro other ⟨⟩
        exact (totalMarkers_held messages earliest).trans (hheld earliest hearliest)

def textMessage (marker : List (Text × Value)) : Value :=
  .dict [(text "role", .str (text "user")), (text "content", .list [
    .dict ((text "type", .str (text "text")) :: marker)])]

def resultMessage (marker : List (Text × Value)) : Value :=
  .dict [(text "role", .str (text "user")), (text "content", .list [
    .dict [(text "type", .str (text "tool_result")), (text "content", .list [
      .dict ((text "type", .str (text "text")) :: marker)])]])]

def ephemeralEntry : List (Text × Value) :=
  [(cacheControl, .dict [(text "type", .str (text "ephemeral"))])]

/-- The marker of a held message is moved to the one before it. -/
theorem ownsBreakpoints_two : OwnsBreakpoints [textMessage [], textMessage ephemeralEntry] [1] :=
  (ownsBreakpoints_iff (by decide) [1]).mpr (by decide +kernel)

/-- A marker inside a tool result is left beside the one that is placed. -/
theorem nested_marker_left : ¬ OwnsBreakpoints [resultMessage ephemeralEntry] [0] := by
  intro howns
  have htotal : totalMarkers (normalizeMessageCacheControl [resultMessage ephemeralEntry]) = 2 := by
    decide +kernel
  exact absurd (htotal ▸ howns.atMostOne) (by decide)

end Legroom.Cache.Breakpoints
