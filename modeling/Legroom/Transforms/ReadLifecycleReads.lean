import Mathlib.Logic.Relation
import Legroom.Lib.Readings
import Legroom.Transforms.ReadLifecycleRewrites

/-!
# Which Reads are replaced

A Read is replaced if its file is edited behind it, or if a later Read covers its lines.
Then the last of the Reads that cover one another is stale or has its result in full.
-/

namespace Legroom.Transforms

open Python

namespace ReadLifecycle

/-! ## Calls of a conversation -/

/-- The calls of a message. -/
def callsIn (message : Value) : List Value :=
  if isAssistant message = some true then
    (toolCallsOf message).getD [] ++ ((blocksOf message).getD []).filter isToolUse
  else []

def callIds (message : Value) : List Key :=
  (callsIn message).filterMap fun call => (call.get (text "id")).bind keyOf

/-- No two calls have the same id. -/
def UniqueCalls (messages : List Value) : Prop := (messages.flatMap callIds).Nodup

variable {key : Key}
variable {call : Value}

theorem keyOf_get_of_truthy {id : Value} (hid : call.getOr (text "id") (.str []) = some id)
    (htruthy : id.truthy = true) (hkey : keyOf id = some key) :
    (call.get (text "id")).bind keyOf = some key := by
  cases call with
  | dict entries =>
      obtain rfl := Option.some.inj hid
      change (entries.lookup (text "id")).bind keyOf = some key
      cases hlookup : entries.lookup (text "id") with
      | none =>
          rw [hlookup] at htruthy
          exact absurd htruthy Bool.false_ne_true
      | some found =>
          rw [hlookup] at hkey
          exact hkey
  | _ => cases hid

variable {metadata : ToolMetadata}

theorem keyOf_of_metadataEntry {id : Value} {found : ToolMetadata}
    (hentry : metadataEntry id metadata = some (some (key, found))) : keyOf id = some key := by
  obtain ⟨other, hother, heq⟩ := Option.map_eq_some_iff.mp hentry
  cases heq
  exact hother

variable {format : FloatFormat}

theorem callMetadata_id (hcall : callMetadata format call = some (some (key, metadata))) :
    (call.get (text "id")).bind keyOf = some key := by
  rw [callMetadata] at hcall
  by_cases hdict : (!call.isDict) = true
  · rw [if_pos hdict] at hcall
    cases hcall
  · rw [if_neg hdict] at hcall
    simp only [bind, Option.bind_eq_some_iff] at hcall
    obtain ⟨id, hid, function, -, name, -, hcall⟩ := hcall
    by_cases hempty : (!id.truthy || !name.truthy) = true
    · rw [if_pos hempty] at hcall
      cases hcall
    · rw [if_neg hempty] at hcall
      obtain ⟨found, -, hentry⟩ := Option.bind_eq_some_iff.mp hcall
      rw [Bool.or_eq_true, not_or, Bool.not_eq_true', Bool.not_eq_false] at hempty
      exact keyOf_get_of_truthy hid hempty.1 (keyOf_of_metadataEntry hentry)

theorem blockMetadata_id {block : Value}
    (hblock : blockMetadata block = some (some (key, metadata))) :
    isToolUse block = true ∧ (block.get (text "id")).bind keyOf = some key := by
  rw [blockMetadata] at hblock
  by_cases huse : (!isToolUse block) = true
  · rw [if_pos huse] at hblock
    cases hblock
  · rw [if_neg huse] at hblock
    simp only [bind, Option.bind_eq_some_iff] at hblock
    obtain ⟨id, hid, name, -, hblock⟩ := hblock
    by_cases hempty : (!id.truthy || !name.truthy) = true
    · rw [if_pos hempty] at hblock
      cases hblock
    · rw [if_neg hempty] at hblock
      simp only [Option.bind_eq_some_iff] at hblock
      obtain ⟨input, -, found, -, hentry⟩ := hblock
      rw [Bool.or_eq_true, not_or, Bool.not_eq_true', Bool.not_eq_false] at hempty
      rw [Bool.not_eq_true', Bool.not_eq_false] at huse
      exact ⟨huse, keyOf_get_of_truthy hid hempty.1 (keyOf_of_metadataEntry hentry)⟩

variable {message : Value}

theorem mem_callIds (hcall : call ∈ callsIn message)
    (hkey : (call.get (text "id")).bind keyOf = some key) : key ∈ callIds message :=
  List.mem_filterMap.mpr ⟨call, hcall, hkey⟩

variable {call : Key × ToolMetadata}

theorem mem_callIds_of_metadata {calls : List (Key × ToolMetadata)}
    (hcalls : messageMetadata format message = some calls) (hcall : call ∈ calls) :
    call.1 ∈ callIds message := by
  simp only [messageMetadata, bind, Option.bind_eq_some_iff] at hcalls
  obtain ⟨assistant, hrole, hcalls⟩ := hcalls
  cases assistant with
  | false =>
      cases hcalls
      exact absurd hcall List.not_mem_nil
  | true =>
      simp only [if_true, Option.bind_eq_some_iff] at hcalls
      obtain ⟨toolCalls, htoolCalls, first, hfirst, blocks, hblocks, second, hsecond, heq⟩ := hcalls
      cases heq
      rw [List.mem_filterMap] at hcall
      obtain ⟨found, hfound, hcall⟩ := hcall
      rw [id_eq] at hcall
      subst hcall
      have hcallsIn : callsIn message = toolCalls ++ blocks.filter isToolUse := by
        rw [callsIn, if_pos hrole, htoolCalls, hblocks]
        rfl
      rcases List.mem_append.mp hfound with hfound | hfound
      · obtain ⟨value, hvalue, hread⟩ := (mem_of_mapM hfirst).mp hfound
        refine mem_callIds ?_ (callMetadata_id hread)
        rw [hcallsIn]
        exact List.mem_append_left _ hvalue
      · obtain ⟨value, hvalue, hread⟩ := (mem_of_mapM hsecond).mp hfound
        obtain ⟨huse, hid⟩ := blockMetadata_id hread
        refine mem_callIds ?_ hid
        rw [hcallsIn]
        exact List.mem_append_right _ (List.mem_filter.mpr ⟨hvalue, huse⟩)

theorem mem_callIds_of_mentions (hmentions : mentionsCall key message = some true) :
    key ∈ callIds message := by
  simp only [mentionsCall, bind, Option.bind_eq_some_iff] at hmentions
  obtain ⟨assistant, hrole, hmentions⟩ := hmentions
  cases assistant with
  | false => cases hmentions
  | true =>
      simp only [if_true, Option.bind_eq_some_iff] at hmentions
      obtain ⟨toolCalls, htoolCalls, blocks, hblocks, hany⟩ := hmentions
      have hcallsIn : callsIn message = toolCalls ++ blocks.filter isToolUse := by
        rw [callsIn, if_pos hrole, htoolCalls, hblocks]
        rfl
      rw [Option.some_inj, Bool.or_eq_true, List.any_eq_true, List.any_eq_true] at hany
      rcases hany with ⟨call, hcall, hid⟩ | ⟨block, hblock, hid⟩
      · refine mem_callIds ?_ (of_decide_eq_true hid)
        rw [hcallsIn]
        exact List.mem_append_left _ hcall
      · obtain ⟨huse, hid⟩ := Bool.and_eq_true_iff.mp hid
        refine mem_callIds ?_ (of_decide_eq_true hid)
        rw [hcallsIn]
        exact List.mem_append_right _ (List.mem_filter.mpr ⟨hblock, huse⟩)

/-- A message in which a call is, with what is known of it. -/
def CallAt (format : FloatFormat) (messages : List Value) (index : ℕ)
    (call : Key × ToolMetadata) : Prop :=
  ∃ message calls, messages[index]? = some message ∧
    messageMetadata format message = some calls ∧ call ∈ calls

variable {messages : List Value}
variable {metadata : Dict Key ToolMetadata}

theorem callAt_of_buildToolMetadata (hbuild : buildToolMetadata format messages = some metadata)
    (hcall : call ∈ metadata.entries) : ∃ index, CallAt format messages index call := by
  obtain ⟨calls, hcalls, heq⟩ := Option.bind_eq_some_iff.mp hbuild
  cases heq
  rcases Dict.mem_foldl_set Prod.fst Prod.snd hcall with ⟨item, hitem, rfl⟩ | hmem
  · obtain ⟨found, hfound, hmem⟩ := List.mem_flatten.mp hitem
    obtain ⟨message, hmessage, hread⟩ := (mem_of_mapM hcalls).mp hfound
    obtain ⟨index, hindex⟩ := List.getElem?_of_mem hmessage
    exact ⟨index, message, found, hindex, hread, hmem⟩
  · exact absurd hmem List.not_mem_nil

theorem findToolCallMsgIndex_spec {start index : ℕ}
    (hfind : findToolCallMsgIndex key start messages = some (some index)) :
    ∃ place message, index = start + place ∧ messages[place]? = some message ∧
      key ∈ callIds message := by
  induction messages generalizing start with
  | nil => cases hfind
  | cons message messages ih =>
      obtain ⟨mentions, hmentions, hfind⟩ := Option.bind_eq_some_iff.mp hfind
      cases mentions with
      | true =>
          obtain rfl : start = index := Option.some.inj (Option.some.inj hfind)
          exact ⟨0, message, rfl, rfl, mem_callIds_of_mentions hmentions⟩
      | false =>
          obtain ⟨place, found, rfl, hfound, hkey⟩ := ih hfind
          exact ⟨place + 1, found, by omega, hfound, hkey⟩

/-- An id is in one message only. -/
theorem index_eq_of_unique (hunique : UniqueCalls messages) {first second : ℕ} {left right : Value}
    (hleft : messages[first]? = some left) (hright : messages[second]? = some right)
    (hleftKey : key ∈ callIds left) (hrightKey : key ∈ callIds right) : first = second := by
  obtain ⟨-, hdisjoint⟩ := List.nodup_flatMap.mp hunique
  rw [List.pairwise_iff_getElem] at hdisjoint
  obtain ⟨hfirst, rfl⟩ := List.getElem?_eq_some_iff.mp hleft
  obtain ⟨hsecond, rfl⟩ := List.getElem?_eq_some_iff.mp hright
  rcases Nat.lt_trichotomy first second with hlt | heq | hlt
  · exact absurd hrightKey (hdisjoint first second hfirst hsecond hlt hleftKey)
  · exact heq
  · exact absurd hleftKey (hdisjoint second first hsecond hfirst hlt hrightKey)

/-! ## Operations -/

/-- An operation on a file that a message calls for. -/
structure Operation (format : FloatFormat) (messages : List Value) (path : Key)
    (op : FileOperation) (metadata : ToolMetadata) : Prop where
  call : CallAt format messages op.msgIndex (op.toolCallId, metadata)
  filePath : op.filePath = metadata.filePath
  path_eq : keyOf op.filePath = some path
  named : op.filePath.truthy = true
  tool : if op.isRead then metadata.name.isIn readToolNames.contains = some true ∧
      op.readOffset = metadata.offset ∧ op.readLimit = metadata.limit
    else metadata.name.isIn mutatingToolNames.contains = some true

variable {path : Key} {op : FileOperation}

/-- What an operation is made of. -/
theorem operationOf_eq_some (hop : operationOf messages call = some (some (path, op))) :
    call.2.filePath.truthy = true ∧ keyOf call.2.filePath = some path ∧
      findToolCallMsgIndex call.1 0 messages = some (some op.msgIndex) ∧
      op.toolCallId = call.1 ∧ op.filePath = call.2.filePath ∧
      if op.isRead then call.2.name.isIn readToolNames.contains = some true ∧
        op.readOffset = call.2.offset ∧ op.readLimit = call.2.limit
      else call.2.name.isIn mutatingToolNames.contains = some true := by
  rw [operationOf] at hop
  by_cases hempty : (!call.2.filePath.truthy) = true
  · rw [if_pos hempty] at hop
    cases hop
  rw [if_neg hempty] at hop
  rw [Bool.not_eq_true', Bool.not_eq_false] at hempty
  obtain ⟨isRead, hread, hop⟩ := Option.bind_eq_some_iff.mp hop
  obtain ⟨isEdit, hedit, hop⟩ := Option.bind_eq_some_iff.mp hop
  by_cases hnone : (!isRead && !isEdit) = true
  · rw [if_pos hnone] at hop
    cases hop
  rw [if_neg hnone] at hop
  obtain ⟨found, hfind, hop⟩ := Option.bind_eq_some_iff.mp hop
  cases found with
  | none => cases hop
  | some index =>
      obtain ⟨key, hkey, heq⟩ := Option.map_eq_some_iff.mp hop
      cases heq
      refine ⟨hempty, hkey, hfind, rfl, rfl, ?_⟩
      cases isRead with
      | true => exact ⟨hread, rfl, rfl⟩
      | false =>
          cases isEdit with
          | true => exact hedit
          | false => exact absurd rfl hnone

theorem operation_of_operationOf (hunique : UniqueCalls messages) {index : ℕ}
    (hcall : CallAt format messages index call)
    (hop : operationOf messages call = some (some (path, op))) :
    Operation format messages path op call.2 := by
  obtain ⟨hnamed, hkey, hfind, hid, hpath, htool⟩ := operationOf_eq_some hop
  obtain ⟨message, calls, hmessage, hcalls, hmem⟩ := hcall
  obtain ⟨place, found, hplace, hfound, hfoundKey⟩ := findToolCallMsgIndex_spec hfind
  rw [Nat.zero_add] at hplace
  have hindex : index = op.msgIndex := hplace ▸
    index_eq_of_unique hunique hmessage hfound (mem_callIds_of_metadata hcalls hmem) hfoundKey
  refine ⟨⟨message, calls, hindex ▸ hmessage, hcalls, ?_⟩, hpath, hpath ▸ hkey, hpath ▸ hnamed,
    htool⟩
  rw [hid]
  exact hmem

/-! ## The index of operations -/

theorem getD_foldl_append (entries : List (Key × FileOperation))
    (ops : Dict Key (List FileOperation)) (path : Key) :
    ((entries.foldl (fun ops entry => appendOperation ops entry.1 entry.2) ops).get? path).getD [] =
      (ops.get? path).getD [] ++ (entries.filter fun entry => entry.1 = path).map Prod.snd := by
  induction entries generalizing ops with
  | nil => exact (List.append_nil _).symm
  | cons entry entries ih =>
      rw [List.foldl_cons, ih, appendOperation, Dict.get?_set]
      by_cases hpath : path = entry.1
      · rw [if_pos hpath, List.filter_cons_of_pos (by simpa using hpath.symm), List.map_cons,
          hpath]
        exact List.append_assoc _ [entry.2] _
      · rw [if_neg hpath, List.filter_cons_of_neg (by simpa using Ne.symm hpath)]

/-- The operations on a file are those of the calls that name it. -/
theorem mem_fileOps {fileOps : Dict Key (List FileOperation)}
    (hindex : buildFileOperationIndex messages metadata = some fileOps) {ops : List FileOperation}
    (hops : (path, ops) ∈ fileOps.entries) :
    op ∈ ops ↔ ∃ call ∈ metadata.entries, operationOf messages call = some (some (path, op)) := by
  obtain ⟨found, hfound, heq⟩ := Option.bind_eq_some_iff.mp hindex
  cases heq
  have hget := getD_foldl_append (found.filterMap id) .empty path
  rw [Dict.get?_eq_some_iff.mpr hops] at hget
  rw [show ops = ((found.filterMap id).filter fun entry => entry.1 = path).map Prod.snd from hget,
    List.mem_map]
  constructor
  · rintro ⟨entry, hentry, rfl⟩
    obtain ⟨hentry, hpath⟩ := List.mem_filter.mp hentry
    obtain ⟨read, hread, hsome⟩ := List.mem_filterMap.mp hentry
    obtain ⟨call, hcall, hop⟩ := (mem_of_mapM hfound).mp hread
    refine ⟨call, hcall, ?_⟩
    rw [hop, ← of_decide_eq_true hpath]
    exact congrArg some hsome
  · rintro ⟨call, hcall, hop⟩
    refine ⟨(path, op), List.mem_filter.mpr ⟨?_, decide_eq_true rfl⟩, rfl⟩
    exact List.mem_filterMap.mpr ⟨_, (mem_of_mapM hfound).mpr ⟨call, hcall, hop⟩, rfl⟩

/-- Operations of one call are the same. -/
theorem operation_eq {first second : Key × ToolMetadata} (hfirst : first ∈ metadata.entries)
    (hsecond : second ∈ metadata.entries) {left right : Key} {other : FileOperation}
    (hop : operationOf messages first = some (some (left, op)))
    (hother : operationOf messages second = some (some (right, other)))
    (hid : op.toolCallId = other.toolCallId) : left = right ∧ op = other := by
  obtain ⟨-, -, -, hopId, -⟩ := operationOf_eq_some hop
  obtain ⟨-, -, -, hotherId, -⟩ := operationOf_eq_some hother
  have hkey : first.1 = second.1 := hopId.symm.trans (hid.trans hotherId)
  obtain rfl := List.inj_on_of_nodup_map metadata.nodup hfirst hsecond hkey
  rw [hop, Option.some_inj, Option.some_inj, Prod.mk.injEq] at hother
  exact hother

/-! ## Classification -/

theorem exists_of_anyM {items : List FileOperation} {pred : FileOperation → Option Bool}
    (hany : items.anyM pred = some true) : ∃ item ∈ items, pred item = some true := by
  induction items with
  | nil => cases hany
  | cons item items ih =>
      rw [List.anyM] at hany
      obtain ⟨found, hfound, hany⟩ := Option.bind_eq_some_iff.mp hany
      cases found with
      | true => exact ⟨item, List.mem_cons_self, hfound⟩
      | false =>
          obtain ⟨other, hother, hpred⟩ := ih hany
          exact ⟨other, List.mem_cons_of_mem item hother, hpred⟩

section

variable (format : FloatFormat) (otherCovers : FileOperation → FileOperation → Option Bool)
  (messages : List Value)

/-- The lines of a Read contain those of another. -/
inductive Covers (later earlier : FileOperation) : Prop where
  | full (hfull : later.isFull = true)
  | range {laterStart laterEnd earlierStart earlierEnd : ℤ} (hpart : earlier.isFull = false)
      (hlater : bounds later = some (laterStart, laterEnd))
      (hearlier : bounds earlier = some (earlierStart, earlierEnd))
      (hstart : laterStart ≤ earlierStart) (hend : earlierEnd ≤ laterEnd)
  | other (hpart : earlier.isFull = false)
      (hbounds : bounds later = none ∨ bounds earlier = none)
      (hcovers : otherCovers later earlier = some true)

variable {otherCovers} in
theorem covers_of_readCovers {later earlier : FileOperation}
    (hcovers : readCovers otherCovers later earlier = some true) :
    Covers otherCovers later earlier := by
  rw [readCovers] at hcovers
  by_cases hfull : later.isFull = true
  · exact .full hfull
  rw [if_neg hfull] at hcovers
  by_cases hpart : earlier.isFull = true
  · rw [if_pos hpart] at hcovers
    cases hcovers
  rw [if_neg hpart] at hcovers
  rw [Bool.not_eq_true] at hpart
  cases hlater : bounds later with
  | none =>
      rw [hlater] at hcovers
      exact .other hpart (.inl hlater) hcovers
  | some found =>
      cases hearlier : bounds earlier with
      | none =>
          rw [hlater, hearlier] at hcovers
          exact .other hpart (.inr hearlier) hcovers
      | some other =>
          rw [hlater, hearlier, Option.some_inj, Bool.and_eq_true, decide_eq_true_iff,
            decide_eq_true_iff] at hcovers
          exact .range hpart hlater hearlier hcovers.1 hcovers.2

/-- A file is edited behind a Read. -/
def Stale (path : Key) (read : FileOperation) : Prop :=
  ∃ edit metadata, Operation format messages path edit metadata ∧ edit.isRead = false ∧
    read.msgIndex < edit.msgIndex

/-- A Read is followed by one that covers its lines. -/
structure Supersedes (path : Key) (earlier later : FileOperation) : Prop where
  operation : ∃ metadata, Operation format messages path later metadata
  isRead : later.isRead = true
  after : earlier.msgIndex < later.msgIndex
  covers : Covers otherCovers later earlier

variable {format otherCovers messages}
variable {config : ReadLifecycleConfig} {ops : List FileOperation} {read : FileOperation}

/-- The state of a Read is a choice between what its file and its lines say. -/
theorem classifyRead_eq :
    classifyRead otherCovers config ops read =
      (if config.compressSuperseded then
          (ops.filter (·.isRead)).anyM fun later =>
            if read.msgIndex < later.msgIndex then readCovers otherCovers later read else some false
        else some false).map fun isSuperseded =>
        if (config.compressStale &&
            (ops.filter fun op => !op.isRead).any fun edit => read.msgIndex < edit.msgIndex) = true
        then .stale else if isSuperseded = true then .superseded else .fresh := by
  rw [classifyRead]
  cases config.compressSuperseded with
  | true => exact (Option.map_eq_bind ..).symm
  | false => rfl

theorem classifyRead_spec {state : ReadState}
    (hstate : classifyRead otherCovers config ops read = some state) :
    (state = .stale → ∃ edit ∈ ops, edit.isRead = false ∧ read.msgIndex < edit.msgIndex) ∧
    (state = .superseded → ∃ later ∈ ops, later.isRead = true ∧
      read.msgIndex < later.msgIndex ∧ Covers otherCovers later read) := by
  rw [classifyRead_eq] at hstate
  obtain ⟨isSuperseded, hsuperseded, rfl⟩ := Option.map_eq_some_iff.mp hstate
  constructor
  · intro hstale
    split_ifs at hstale with hany
    rw [Bool.and_eq_true, List.any_eq_true] at hany
    obtain ⟨-, edit, hedit, hafter⟩ := hany
    obtain ⟨hmem, hread⟩ := List.mem_filter.mp hedit
    exact ⟨edit, hmem, Bool.not_eq_true' _ ▸ hread, of_decide_eq_true hafter⟩
  · intro hstate
    split_ifs at hstate with hstale hany
    rw [hany] at hsuperseded
    by_cases hconfig : config.compressSuperseded = true
    · rw [if_pos hconfig] at hsuperseded
      obtain ⟨later, hlater, hcovers⟩ := exists_of_anyM hsuperseded
      obtain ⟨hmem, hread⟩ := List.mem_filter.mp hlater
      by_cases hafter : read.msgIndex < later.msgIndex
      · rw [if_pos hafter] at hcovers
        exact ⟨later, hmem, hread, hafter, covers_of_readCovers hcovers⟩
      · rw [if_neg hafter] at hcovers
        cases hcovers
    · rw [if_neg hconfig] at hsuperseded
      cases hsuperseded

/-- An operation that is one of a Read. -/
def IsRead (format : FloatFormat) (messages : List Value) (path : Key) (read : FileOperation) :
    Prop :=
  (∃ metadata, Operation format messages path read metadata) ∧ read.isRead = true

variable (otherCovers) in
/-- The Read of a classification. -/
structure Classified (fileOps : Dict Key (List FileOperation)) (config : ReadLifecycleConfig)
    (classification : ReadClassification) (path : Key) (ops : List FileOperation)
    (read : FileOperation) : Prop where
  file : (path, ops) ∈ fileOps.entries
  mem : read ∈ ops
  isRead : read.isRead = true
  msgIndex : classification.msgIndex = read.msgIndex
  toolCallId : classification.toolCallId = read.toolCallId
  state : classifyRead otherCovers config ops read = some classification.state

variable {fileOps : Dict Key (List FileOperation)} {classifications : List ReadClassification}

theorem classified_of_classifyReads
    (hclassify : classifyReads otherCovers config fileOps = some classifications)
    {classification : ReadClassification} (hmem : classification ∈ classifications) :
    ∃ path ops read, Classified otherCovers fileOps config classification path ops read := by
  obtain ⟨files, hfiles, heq⟩ := Option.bind_eq_some_iff.mp hclassify
  cases heq
  obtain ⟨file, hfile, hmem⟩ := List.mem_flatten.mp hmem
  obtain ⟨⟨path, ops⟩, hentry, hfile⟩ := (mem_of_mapM hfiles).mp hfile
  obtain ⟨read, hread, hclassification⟩ := (mem_of_mapM hfile).mp hmem
  obtain ⟨state, hstate, heq⟩ := Option.bind_eq_some_iff.mp hclassification
  cases heq
  obtain ⟨hread, hisRead⟩ := List.mem_filter.mp hread
  exact ⟨path, ops, read, hentry, hread, hisRead, rfl, rfl, hstate⟩

/-- Each Read has a state. -/
theorem exists_state_of_classifyReads
    (hclassify : classifyReads otherCovers config fileOps = some classifications) {path : Key}
    (hops : (path, ops) ∈ fileOps.entries) (hread : read ∈ ops) (hisRead : read.isRead = true) :
    ∃ state, classifyRead otherCovers config ops read = some state := by
  obtain ⟨files, hfiles, -⟩ := Option.bind_eq_some_iff.mp hclassify
  obtain ⟨file, hfile⟩ := exists_of_mapM hfiles hops
  obtain ⟨classification, hclassification⟩ :=
    exists_of_mapM hfile (List.mem_filter.mpr ⟨hread, hisRead⟩)
  obtain ⟨state, hstate, -⟩ := Option.bind_eq_some_iff.mp hclassification
  exact ⟨state, hstate⟩

/-! ## Results of a call -/

def namesCall (idKey : Text) (key : Key) (result : Value) : Bool :=
  (result.getOr idKey (.str [])).bind keyOf = some key

/-- The content of a message without the results that are blocks of it. -/
def ownContent : Value → Value
  | .list blocks => .list (blocks.filter fun block => !isToolResult block)
  | content => content

def isToolMessage (message : Value) : Bool :=
  (message.get (text "role")).any fun role => role.isText (text "tool")

/-- The results of a call in a message. -/
def resultsOf (key : Key) (message : Value) : List Value :=
  let content := (message.get (text "content")).getD (.str [])
  (if isToolMessage message && namesCall (text "tool_call_id") key message then
      [ownContent content] else []) ++
    (content.asList.getD []).filter fun block =>
      isToolResult block && namesCall (text "tool_use_id") key block

/-- No result is before its call. -/
def ResultsFollow (messages : List Value) : Prop :=
  messages.Pairwise fun earlier later => ∀ key ∈ callIds later, resultsOf key earlier = []

/-- The results of a call are in the processed messages as they were. -/
def Kept (key : Key) (messages processed : List Value) : Prop :=
  processed.map (resultsOf key) = messages.map (resultsOf key)

theorem isToolResult_put {block : Value} (marker : Value) :
    isToolResult (block.put (text "content") marker) = isToolResult block := by
  cases block with
  | dict entries => rw [isToolResult, Value.get_put rfl, if_neg (by decide), isToolResult]
  | _ => rfl

variable {key : Key}

theorem namesCall_put {idKey : Text} (hidKey : idKey ≠ text "content") {result : Value}
    (marker : Value) :
    namesCall idKey key (result.put (text "content") marker) = namesCall idKey key result := by
  cases result with
  | dict entries =>
      rw [namesCall, Value.getOr_of_isDict (by rw [Value.isDict_put]; rfl), Value.get_put rfl,
        if_neg hidKey, namesCall]
      rfl
  | _ => rfl

variable {message : Value}

theorem isToolMessage_put (content : Value) :
    isToolMessage (message.put (text "content") content) = isToolMessage message := by
  cases message with
  | dict entries => rw [isToolMessage, Value.get_put rfl, if_neg (by decide), isToolMessage]
  | _ => rfl

variable {replacement : Replacement}

/-- A replacement is a result of its own call only. -/
theorem Replacement.Of.namesCall_eq {idKey : Text} {result : Value}
    (hof : replacement.Of idKey result) (key : Key) :
    namesCall idKey key result = decide (replacement.classification.toolCallId = key) := by
  rw [namesCall, hof.id]
  exact decide_eq_decide.mpr Option.some_inj

variable {replaced : List Replacement}
variable {blocks processed : List Value}

/-- Blocks that are selected neither before nor behind their replacement. -/
theorem filter_eq_of_blocksRewrite {selected : Value → Bool}
    (hrewrite : BlocksRewrite blocks replaced processed)
    (hselected : ∀ replacement ∈ replaced, ∀ block, isToolResult block = true →
      replacement.Of (text "tool_use_id") block →
      selected block = false ∧
        selected (block.put (text "content") (.str replacement.marker)) = false) :
    processed.filter selected = blocks.filter selected := by
  induction hrewrite with
  | nil => rfl
  | cons hblock _ ih =>
      have hrest := ih fun replacement hmem => hselected replacement (List.mem_append_right _ hmem)
      cases hblock with
      | same => rw [List.filter_cons, List.filter_cons, hrest]
      | replaced hresult hof htool =>
          obtain ⟨hbefore, hbehind⟩ := hselected _ List.mem_cons_self _ hresult hof
          rw [List.filter_cons, List.filter_cons, hbefore, hbehind, hrest]
          rfl

/-- The results of a call stay where it has no replacement. -/
theorem resultsOf_eq_of_messageRewrite {processed : Value}
    (hrewrite : MessageRewrite message replaced processed)
    (hother : ∀ replacement ∈ replaced, replacement.classification.toolCallId ≠ key) :
    resultsOf key processed = resultsOf key message := by
  cases hrewrite with
  | same => rfl
  | @tool replacement hrole hof htool =>
      have hdict := Value.isDict_of_get hrole
      have hcontent := Value.getOr_eq_some hof.content
      have hnamed := hof.namesCall_eq key
      rw [decide_eq_false (hother replacement List.mem_cons_self)] at hnamed
      rw [resultsOf, resultsOf, namesCall_put (by decide), hnamed, Bool.and_false, Bool.and_false,
        hcontent, Value.get_put hdict, if_pos rfl]
      rfl
  | @blocks blocks rest _ hcontent hblocks =>
      have hdict := Value.isDict_of_get hcontent
      have hown : rest.filter (fun block => !isToolResult block) =
          blocks.filter fun block => !isToolResult block :=
        filter_eq_of_blocksRewrite hblocks fun replacement _ block hresult _ => by
          rw [isToolResult_put, hresult]
          exact ⟨rfl, rfl⟩
      have hresults : rest.filter (fun block =>
            isToolResult block && namesCall (text "tool_use_id") key block) =
          blocks.filter fun block =>
            isToolResult block && namesCall (text "tool_use_id") key block :=
        filter_eq_of_blocksRewrite hblocks fun replacement hmem block hresult hof => by
          rw [isToolResult_put, namesCall_put (by decide), hof.namesCall_eq,
            decide_eq_false (hother replacement hmem), Bool.and_false]
          exact ⟨rfl, rfl⟩
      rw [resultsOf, resultsOf, isToolMessage_put, namesCall_put (by decide), hcontent,
        Value.get_put hdict, if_pos rfl]
      simp only [Option.getD_some, ownContent, Value.asList, hown, hresults]

theorem BlocksRewrite.exists_block (hrewrite : BlocksRewrite blocks replaced processed)
    (hmem : replacement ∈ replaced) :
    ∃ block ∈ blocks, isToolResult block = true ∧ replacement.Of (text "tool_use_id") block := by
  induction hrewrite with
  | nil => exact absurd hmem List.not_mem_nil
  | cons hblock _ ih =>
      rcases List.mem_append.mp hmem with hmem | hmem
      · cases hblock with
        | same => exact absurd hmem List.not_mem_nil
        | replaced hresult hof htool =>
            obtain rfl := List.mem_singleton.mp hmem
            exact ⟨_, List.mem_cons_self, hresult, hof⟩
      · obtain ⟨block, hblock, hfound⟩ := ih hmem
        exact ⟨block, List.mem_cons_of_mem _ hblock, hfound⟩

/-- What is replaced is a result of its call. -/
theorem resultsOf_ne_nil_of_messageRewrite {processed : Value}
    (hrewrite : MessageRewrite message replaced processed) (hmem : replacement ∈ replaced) :
    resultsOf replacement.classification.toolCallId message ≠ [] := by
  cases hrewrite with
  | same => exact absurd hmem List.not_mem_nil
  | tool hrole hof htool =>
      obtain rfl := List.mem_singleton.mp hmem
      have hnamed := hof.namesCall_eq replacement.classification.toolCallId
      rw [decide_eq_true rfl] at hnamed
      have htool : isToolMessage message = true := by
        rw [isToolMessage, hrole]
        rfl
      rw [resultsOf, htool, hnamed]
      exact List.cons_ne_nil _ _
  | blocks hcontent hblocks =>
      obtain ⟨block, hblock, hresult, hof⟩ := hblocks.exists_block hmem
      have hnamed := hof.namesCall_eq replacement.classification.toolCallId
      rw [decide_eq_true rfl] at hnamed
      rw [resultsOf, hcontent]
      exact List.append_ne_nil_of_right_ne_nil _ (List.ne_nil_of_mem
        (List.mem_filter.mpr ⟨hblock, by rw [hresult, hnamed]; rfl⟩))

theorem kept_of_messagesRewrite {steps : List (List Replacement × Value)}
    (hrewrite : MessagesRewrite messages steps)
    (hother : ∀ step ∈ steps, ∀ replacement ∈ step.1, replacement.classification.toolCallId ≠ key) :
    Kept key messages (steps.map Prod.snd) := by
  rw [Kept, List.map_map]
  induction hrewrite with
  | nil => rfl
  | cons hmessage _ ih =>
      obtain ⟨hfirst, hrest⟩ := List.forall_mem_cons.mp hother
      rw [List.map_cons, List.map_cons, ih hrest]
      exact congrArg (· :: _) (resultsOf_eq_of_messageRewrite hmessage hfirst)

/-! ## Chains of Reads -/

section

variable {config : ReadLifecycleConfig} {metadata : Dict Key ToolMetadata}
  {fileOps : Dict Key (List FileOperation)} {classifications : List ReadClassification}
  (hunique : UniqueCalls messages)
  (hbuild : buildToolMetadata format messages = some metadata)
  (hindex : buildFileOperationIndex messages metadata = some fileOps)
  (hclassify : classifyReads otherCovers config fileOps = some classifications)
include hbuild hindex

variable {path : Key} {ops : List FileOperation}

include hunique in
theorem operation_of_mem (hops : (path, ops) ∈ fileOps.entries) {op : FileOperation}
    (hop : op ∈ ops) : ∃ known, Operation format messages path op known := by
  obtain ⟨call, hcall, hop⟩ := (mem_fileOps hindex hops).mp hop
  obtain ⟨index, hat⟩ := callAt_of_buildToolMetadata hbuild hcall
  exact ⟨call.2, operation_of_operationOf hunique hat hop⟩

variable {read : FileOperation}

include hunique in
theorem stale_of_mem (hops : (path, ops) ∈ fileOps.entries)
    (hstate : classifyRead otherCovers config ops read = some .stale) :
    Stale format messages path read := by
  obtain ⟨edit, hedit, hisEdit, hafter⟩ := (classifyRead_spec hstate).1 rfl
  obtain ⟨known, hknown⟩ := operation_of_mem hunique hbuild hindex hops hedit
  exact ⟨edit, known, hknown, hisEdit, hafter⟩

include hunique in
theorem supersedes_of_mem (hops : (path, ops) ∈ fileOps.entries)
    (hstate : classifyRead otherCovers config ops read = some .superseded) :
    ∃ later ∈ ops, Supersedes format otherCovers messages path read later := by
  obtain ⟨later, hlater, hisRead, hafter, hcovers⟩ := (classifyRead_spec hstate).2 rfl
  exact ⟨later, hlater,
    operation_of_mem hunique hbuild hindex hops hlater, hisRead, hafter, hcovers⟩

omit hbuild in
include hclassify in
/-- A fresh Read has no replacement: a call has one operation only. -/
theorem get?_eq_none_of_fresh (hops : (path, ops) ∈ fileOps.entries) (hread : read ∈ ops)
    (hstate : classifyRead otherCovers config ops read = some .fresh) (frozen : ℤ) :
    (replacementsOf (classifications.map (thaw frozen))).get? read.toolCallId = none := by
  by_contra hsome
  obtain ⟨found, hfound⟩ := Option.ne_none_iff_exists'.mp hsome
  obtain ⟨hmem, hnotFresh, hid⟩ := mem_of_replacementsOf hfound
  obtain ⟨classification, hclassification, rfl⟩ := List.mem_map.mp hmem
  obtain ⟨otherPath, otherOps, other, hother⟩ :=
    classified_of_classifyReads hclassify hclassification
  obtain ⟨call, hcall, hop⟩ := (mem_fileOps hindex hops).mp hread
  obtain ⟨otherCall, hotherCall, hotherOp⟩ := (mem_fileOps hindex hother.file).mp hother.mem
  have hthaw : (thaw frozen classification).toolCallId = classification.toolCallId := by
    rw [thaw]
    split_ifs <;> rfl
  obtain ⟨rfl, rfl⟩ := operation_eq hcall hotherCall hop hotherOp
    (hid.symm.trans (hthaw.trans hother.toolCallId))
  have hsame : ops = otherOps := Option.some_inj.mp
    ((Dict.get?_eq_some_iff.mpr hops).symm.trans (Dict.get?_eq_some_iff.mpr hother.file))
  have hfresh : classification.state = .fresh := by
    rw [← Option.some_inj, ← hother.state, ← hsame, hstate]
  rw [thaw] at hnotFresh
  split_ifs at hnotFresh
  · exact hnotFresh rfl
  · exact hnotFresh hfresh

include hunique hclassify in
/-- The Reads that cover one another end in one that is stale or has no replacement. -/
theorem exists_last (hops : (path, ops) ∈ fileOps.entries) (frozen : ℤ) (hread : read ∈ ops)
    (hisRead : read.isRead = true) :
    ∃ last, Relation.ReflTransGen (Supersedes format otherCovers messages path) read last ∧
      (Stale format messages path last ∨
        (replacementsOf (classifications.map (thaw frozen))).get? last.toolCallId = none) := by
  -- The calls of the Reads come later and later, and there are finitely many messages.
  induction hremaining : messages.length - read.msgIndex using Nat.strong_induction_on
    generalizing read with
  | _ remaining ih =>
      obtain ⟨state, hstate⟩ := exists_state_of_classifyReads hclassify hops hread hisRead
      cases state with
      | fresh =>
          exact ⟨read, .refl,
            .inr (get?_eq_none_of_fresh hindex hclassify hops hread hstate frozen)⟩
      | stale => exact ⟨read, .refl, .inl (stale_of_mem hunique hbuild hindex hops hstate)⟩
      | superseded =>
          obtain ⟨later, hlater, hsupersedes⟩ :=
            supersedes_of_mem hunique hbuild hindex hops hstate
          obtain ⟨known, message, calls, hmessage, -⟩ := hsupersedes.operation.imp fun _ => (·.call)
          have hlength := (List.getElem?_eq_some_iff.mp hmessage).1
          have hafter := hsupersedes.after
          obtain ⟨last, hchain, hend⟩ :=
            ih (messages.length - later.msgIndex) (by omega) hlater hsupersedes.isRead rfl
          exact ⟨last, .head hsupersedes hchain, hend⟩

variable (format otherCovers messages) in
/-- A Read whose result is not needed.  Its file is edited behind it, or it is covered by a later
Read.  Then the last of the Reads that cover one another is stale or has its results in full. -/
def Redundant (processed : List Value) (path : Key) (read : FileOperation) : Prop :=
  Stale format messages path read ∨
    ∃ later last, Supersedes format otherCovers messages path read later ∧
      Relation.ReflTransGen (Supersedes format otherCovers messages path) later last ∧
      (Stale format messages path last ∨ Kept last.toolCallId messages processed)

include hunique hclassify in
/-- What is replaced is a Read that is redundant and not called in the frozen prefix. -/
theorem redundant_of_get? {frozen : ℤ} {processed : List Value}
    (hkept : ∀ key,
      (replacementsOf (classifications.map (thaw frozen))).get? key = none →
        Kept key messages processed) {key : Key} {classification : ReadClassification}
    (hget : (replacementsOf (classifications.map (thaw frozen))).get? key = some classification) :
    ∃ path read, IsRead format messages path read ∧ read.toolCallId = key ∧
      frozen ≤ read.msgIndex ∧ Redundant format otherCovers messages processed path read := by
  obtain ⟨hmem, hnotFresh, rfl⟩ := mem_of_replacementsOf hget
  obtain ⟨found, hfound, rfl⟩ := List.mem_map.mp hmem
  obtain ⟨path, ops, read, hread⟩ := classified_of_classifyReads hclassify hfound
  by_cases hfrozen : (found.msgIndex : ℤ) < frozen
  · rw [thaw, if_pos hfrozen] at hnotFresh
    exact absurd rfl hnotFresh
  rw [thaw, if_neg hfrozen] at hnotFresh ⊢
  refine ⟨path, read, ⟨operation_of_mem hunique hbuild hindex hread.file hread.mem, hread.isRead⟩,
    hread.toolCallId.symm, hread.msgIndex ▸ not_lt.mp hfrozen, ?_⟩
  cases hstate : found.state with
  | fresh => exact absurd hstate hnotFresh
  | stale =>
      exact .inl (stale_of_mem hunique hbuild hindex hread.file (hstate ▸ hread.state))
  | superseded =>
      obtain ⟨later, hlater, hsupersedes⟩ :=
        supersedes_of_mem hunique hbuild hindex hread.file (hstate ▸ hread.state)
      obtain ⟨last, hchain, hend⟩ := exists_last hunique hbuild hindex hclassify hread.file frozen
        hlater hsupersedes.isRead
      exact .inr ⟨later, last, hsupersedes, hchain, hend.imp_right (hkept last.toolCallId)⟩

end

/-! ## Requests -/

/-- Messages that stay as they are. -/
theorem messagesRewrite_same (messages : List Value) :
    MessagesRewrite messages (messages.map fun message => ([], message)) := by
  induction messages with
  | nil => exact .nil
  | cons message messages ih => exact .cons (.same message) ih

variable (format otherCovers messages) in
/-- Messages behind a request.  What is replaced in them are results of redundant Reads, at
indices that are not frozen. -/
def ReplacesRedundant (frozen : ℤ) (processed : List Value) : Prop :=
  ∃ steps, MessagesRewrite messages steps ∧ processed = steps.map Prod.snd ∧
    ∀ (index : ℕ) (step : List Replacement × Value), steps[index]? = some step →
      ∀ replacement ∈ step.1, frozen ≤ index ∧
        ∃ path read, IsRead format messages path read ∧
          read.toolCallId = replacement.classification.toolCallId ∧
          Redundant format otherCovers messages processed path read

theorem replacesRedundant_same (frozen : ℤ) :
    ReplacesRedundant format otherCovers messages frozen messages := by
  refine ⟨_, messagesRewrite_same messages, ?_, fun index step hstep replacement hmem => ?_⟩
  · rw [List.map_map]
    exact (List.map_id messages).symm
  · rw [List.getElem?_map] at hstep
    obtain ⟨message, -, rfl⟩ := Option.map_eq_some_iff.mp hstep
    exact absurd hmem List.not_mem_nil

section

variable {Store : Type} {digest : Bytes → Text}
  {storeCall : Option (Store → StoreCall → Store × Option Text)} {config : ReadLifecycleConfig}

section

def readOf (id : String) : Value :=
  .dict [(text "role", .str (text "assistant")), (text "content", .list [.dict [
    (text "type", .str (text "tool_use")), (text "id", .str (text id)),
    (text "name", .str (text "Read")),
    (text "input", .dict [(text "file_path", .str (text "a.py"))])]])]

def resultOf (id content : String) : Value :=
  .dict [(text "role", .str (text "user")), (text "content", .list [.dict [
    (text "type", .str (text "tool_result")), (text "tool_use_id", .str (text id)),
    (text "content", .str (text content))]])]

def twoReads : List Value :=
  [readOf "1", resultOf "1" "old", readOf "2", resultOf "2" "new"]

def anyFloats : FloatFormat := ⟨fun _ => [], fun _ => .int 0⟩

def twoReadsBehind : Option (Unit × ReadLifecycleResult) :=
  apply (fun _ _ => none) anyFloats (fun _ => text "0") none ⟨true, true, true, 1⟩ () twoReads 0

end

end

end

end ReadLifecycle

end Legroom.Transforms
